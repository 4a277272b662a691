import Umeq.Jitter.X8664.Backend

/-! # The i386 back end: lowering and register allocation

    The instructions are those of the x86_64 back end. A 64-bit register is a pair: its
    `index` is the register of its lower half and its `index2` that of its upper half,
    and both are words of the stack frame, of which there are 16.
-/

namespace Umeq.Jitter.I386

open Words
open X86_64 (x86Instruction)

def REG_NUMBER : Nat := 16

/-- `struct inter`. The registers that use their `index2` are `wide`. -/
structure inter extends X86_64.inter where
  wide : Nat → Bool

/-- `reset`. -/
def reset : inter := ⟨X86_64.reset, fun _ => false⟩

/-- `allocateRegister` for no register of the representation. -/
def allocateTemporary (i : inter) : inter × Nat :=
  let (j, v) := X86_64.allocateTemporary i.tointer
  (⟨j, Function.update i.wide v false⟩, v)

def allocateRegister (i : inter) (irReg : irRegister) : inter × Nat :=
  match i.backend irReg.index with
  | some res => (i, res)
  | none =>
    let (i, res) := allocateTemporary i
    ({ i with
      backend := Function.update i.backend irReg.index (some res)
      wide := Function.update i.wide res (irReg.type = .w64) }, res)

/-- What every `add_*` does. -/
def inter.add (i : inter) (insn : x86Instruction) : inter := { i with tointer := i.tointer.add insn }

def add_mov_const (i : inter) (dst : Nat) (value : BitVec 64) : inter :=
  { i with tointer := X86_64.add_mov_const i.tointer dst value }

def add_exit (i : inter) (value : Nat) (pred : Option Nat) : inter :=
  { i with tointer := X86_64.add_exit i.tointer value pred }

/-- An operand that may be missing. -/
def allocateOptional (i : inter) : Option irRegister → inter × Option Nat
  | none => (i, none)
  | some r =>
    let (i, v) := allocateRegister i r
    (i, some v)

/-! ## Lowering -/

/-- The shift that moves the sign bit of a width to the top of a word, `goto_p0`. -/
def sign_shift : width → Nat
  | .w8 => 24
  | .w16 => 16
  | .w32 | .w64 => 0

/-- The label `binop_asr`: the operand is sign extended first. -/
def add_asr (i : inter) (w : width) (dst op1 op2 : Nat) : inter :=
  if sign_shift w ≠ 0 then
    let (i, shiftValue) := allocateTemporary i
    let i := add_mov_const i shiftValue (BitVec.ofNat 64 (sign_shift w))
    let (i, shiftLeftResult) := allocateTemporary i
    let i := i.add (.binop .w32 .SHL shiftLeftResult op1 shiftValue)
    let (i, shiftRightResult) := allocateTemporary i
    let i := i.add (.binop .w32 .ASR shiftRightResult shiftLeftResult shiftValue)
    i.add (.binop w .ASR dst shiftRightResult op2)
  else i.add (.binop w .ASR dst op1 op2)

/-- One round of `allocateInstructions`. -/
def allocateInstruction (lastReadIndex : Nat → Option Nat) (i : inter) : irInstruction → inter
  | .mov _ dst value =>
    let (i, dst) := allocateRegister i dst
    add_mov_const i dst value
  | .load w dst address =>
    let (i, dst) := allocateRegister i dst
    let (i, address) := allocateRegister i address
    i.add (.load w dst address)
  | .store w src address =>
    -- a 64-bit address is cut to its lower half
    if address.type = .w64 then
      let (i, address32) := allocateTemporary i
      let (i, address) := allocateRegister i address
      let i := i.add (.cast .c64_TO_32 address32 address)
      let (i, src) := allocateRegister i src
      i.add (.store w src address32)
    else
      let (i, address32) := allocateRegister i address
      let (i, src) := allocateRegister i src
      i.add (.store w src address32)
  | .binop type w dst op1 op2 =>
    let (i, dst) := allocateRegister i dst
    let (i, op1) := allocateRegister i op1
    let (i, op2) := allocateRegister i op2
    if type = .ASR then add_asr i w dst op1 op2 else i.add (.binop w type dst op1 op2)
  | .ite _ dst pred trueOp falseOp =>
    let (i, dst) := allocateRegister i dst
    let (i, pred) := allocateRegister i pred
    let (i, trueOp) := allocateRegister i trueOp
    let (i, falseOp) := allocateRegister i falseOp
    i.add (.ite dst pred trueOp falseOp)
  | .cast type dst op =>
    let (i, dst) := allocateRegister i dst
    let (i, op) := allocateRegister i op
    i.add (.cast type dst op)
  | .exit value pred =>
    let (i, value) := allocateRegister i value
    let (i, pred) := allocateOptional i pred
    add_exit i value pred
  | .call address param result =>
    let (i, p0) := allocateOptional i (param 0)
    let (i, p1) := allocateOptional i (param 1)
    let (i, p2) := allocateOptional i (param 2)
    let (i, p3) := allocateOptional i (param 3)
    let (i, result) := allocateOptional i result
    let (i, address) := allocateRegister i address
    i.add (.call address ![p0, p1, p2, p3] result)
  | .read_context w dst offset =>
    -- if register is never use then drop the read
    if lastReadIndex dst.index ≠ none then
      let (i, dst) := allocateRegister i dst
      i.add (.read w dst offset)
    else i
  | .write_context w src offset =>
    let (i, src) := allocateRegister i src
    i.add (.write w src offset)
  | .marker value => i.add (.marker value)

def allocateInstructions (j : jitter) : inter :=
  j.insns.foldl (allocateInstruction j.lastReadIndex) reset

/-! ## Register allocation -/

/-- The halves of a register: the lower one and, if there is one, the upper one. -/
def halves (wide : Nat → Bool) (v : Nat) : List (Nat × Bool) :=
  if wide v then [(v, false), (v, true)] else [(v, false)]

/-- What the loop of `allocateRegisters` does in each of its cases. -/
def access (wide : Nat → Bool) (insn : x86Instruction) : LinearScan.access (Nat × Bool) :=
  ⟨insn.reads.flatMap (halves wide), insn.dst.toList.flatMap (halves wide)⟩

/-- `allocateRegisters`: both halves of a register are given back after its last read.
    `LinearScan.take` for each half is `getFreeReg`, and `LinearScan.release` is
    `setRegFreeIfNoMoreUse`. -/
def allocateRegisters (i : inter) : Option (LinearScan.places (Nat × Bool)) :=
  LinearScan.scan REG_NUMBER (fun h => i.lastReadIndex h.1) 0 (i.insns.map (access i.wide))
    ⟨fun _ => true, Prod.fst⟩

end Umeq.Jitter.I386
