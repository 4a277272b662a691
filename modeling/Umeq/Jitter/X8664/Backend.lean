import Umeq.Jitter.Ir
import Umeq.Lib.LinearScan
import Mathlib.Data.Fin.VecNotation
import Mathlib.Data.List.ReduceOption

/-! # The x86_64 back end: lowering and register allocation

    `allocateInstructions` turns the representation into x86 instructions over
    virtual registers, one for one except for arithmetic shifts, and keeps for each
    virtual register the last instruction that reads it. `allocateRegisters` then
    gives each of them one of the eight host registers `r8` to `r15` from its
    definition to its last read.

    A `struct x86Register` is known by the number it gets when it is allocated;
    its mutable fields are tables over these numbers.
-/

namespace Umeq.Jitter.X86_64

open Words

def REG_NUMBER : Nat := 8

/-! ## Instructions -/

/-- `struct x86Instruction`. The operations of `enum x86BinopType` are those of the
    representation. -/
inductive x86Instruction where
  | mov_const (dst : Nat) (value : BitVec 64)
  | load (w : width) (dst address : Nat)
  | store (w : width) (src address : Nat)
  | binop (w : width) (type : irBinopType) (dst op1 op2 : Nat)
  | ite (dst pred trueOp falseOp : Nat)
  | cast (type : irCastType) (dst op : Nat)
  | exit (value : Nat) (pred : Option Nat) (is_patchable : Bool)
  | call (address : Nat) (param : Fin 4 → Option Nat) (result : Option Nat)
  | read (w : width) (dst : Nat) (offset : BitVec 32)
  | write (w : width) (src : Nat) (offset : BitVec 32)
  | marker (value : BitVec 32)
  deriving DecidableEq

/-- The registers that an instruction reads. -/
def x86Instruction.reads : x86Instruction → List Nat
  | .mov_const _ _ | .read _ _ _ | .marker _ => []
  | .load _ _ address => [address]
  | .store _ src address => [address, src]
  | .binop _ _ _ op1 op2 => [op1, op2]
  | .ite _ pred trueOp falseOp => [pred, trueOp, falseOp]
  | .cast _ _ op => [op]
  | .exit value pred _ => value :: pred.toList
  | .call address param _ => address :: (List.ofFn param).reduceOption
  | .write _ src _ => [src]

/-- The register that an instruction writes. -/
def x86Instruction.dst : x86Instruction → Option Nat
  | .mov_const dst _ | .load _ dst _ | .binop _ _ dst _ _ | .ite dst _ _ _ | .cast _ dst _
  | .read _ dst _ => some dst
  | .call _ _ result => result
  | .store _ _ _ | .exit _ _ _ | .write _ _ _ | .marker _ => none

/-- What is made of the parameters of a call depends on the registers that it reads. -/
theorem map_params_congr {β : Type} {f g : Nat → β} {param : Fin 4 → Option Nat}
    (h : ∀ v ∈ (List.ofFn param).reduceOption, f v = g v) :
    (fun i => (param i).map f) = fun i => (param i).map g := by
  funext i
  apply Option.map_congr
  intro v hv
  exact h v (List.reduceOption_mem_iff.mpr (List.mem_ofFn.mpr ⟨i, hv⟩))

/-- `struct inter`: the instructions and the fields of the registers allocated.
    `backend` is the field of the registers of the representation. -/
structure inter where
  insns : List x86Instruction
  regIndex : Nat
  backend : Nat → Option Nat
  isConstant : Nat → Bool
  lastReadIndex : Nat → Option Nat

/-- `reset`. -/
def reset : inter := ⟨[], 0, fun _ => none, fun _ => false, fun _ => none⟩

/-- `allocateRegister` for no register of the representation. -/
def allocateTemporary (i : inter) : inter × Nat :=
  ({ i with
    regIndex := i.regIndex + 1
    isConstant := Function.update i.isConstant i.regIndex false
    lastReadIndex := Function.update i.lastReadIndex i.regIndex none }, i.regIndex)

def allocateRegister (i : inter) (irReg : irRegister) : inter × Nat :=
  match i.backend irReg.index with
  | some res => (i, res)
  | none =>
    let (i, res) := allocateTemporary i
    ({ i with backend := Function.update i.backend irReg.index (some res) }, res)

/-- What every `add_*` does: the registers read get the index of the instruction. -/
def inter.add (i : inter) (insn : x86Instruction) : inter :=
  { i with
    insns := i.insns ++ [insn]
    lastReadIndex := fun v => if v ∈ insn.reads then some i.insns.length else i.lastReadIndex v }

def add_mov_const (i : inter) (dst : Nat) (value : BitVec 64) : inter :=
  { i.add (.mov_const dst value) with isConstant := Function.update i.isConstant dst true }

def add_exit (i : inter) (value : Nat) (pred : Option Nat) : inter :=
  i.add (.exit value pred (i.isConstant value))

/-- An operand that may be missing. -/
def allocateOptional (i : inter) : Option irRegister → inter × Option Nat
  | none => (i, none)
  | some r =>
    let (i, v) := allocateRegister i r
    (i, some v)

/-! ## Lowering -/

/-- The shift that moves the sign bit of a width to the top, `goto_p0`. -/
def sign_shift : width → Nat
  | .w8 => 56
  | .w16 => 48
  | .w32 => 32
  | .w64 => 0

/-- The label `binop_asr`: the operand is sign extended first. -/
def add_asr (i : inter) (w : width) (dst op1 op2 : Nat) : inter :=
  if sign_shift w ≠ 0 then
    let (i, shiftValue) := allocateTemporary i
    let i := add_mov_const i shiftValue (BitVec.ofNat 64 (sign_shift w))
    let (i, shiftLeftResult) := allocateTemporary i
    let i := i.add (.binop .w64 .SHL shiftLeftResult op1 shiftValue)
    let (i, shiftRightResult) := allocateTemporary i
    let i := i.add (.binop .w64 .ASR shiftRightResult shiftLeftResult shiftValue)
    i.add (.binop w .ASR dst shiftRightResult op2)
  else i.add (.binop w .ASR dst op1 op2)

/-- One round of `allocateInstructions`; `lastReadIndex` is that of the
    representation. -/
def allocateInstruction (lastReadIndex : Nat → Option Nat) (i : inter) : irInstruction → inter
  | .mov _ dst value =>
    let (i, dst) := allocateRegister i dst
    add_mov_const i dst value
  | .load w dst address =>
    let (i, dst) := allocateRegister i dst
    let (i, address) := allocateRegister i address
    i.add (.load w dst address)
  | .store w src address =>
    let (i, src) := allocateRegister i src
    let (i, address) := allocateRegister i address
    i.add (.store w src address)
  | .binop type w dst op1 op2 =>
    let (i, dst) := allocateRegister i dst
    let (i, op1) := allocateRegister i op1
    let (i, op2) := allocateRegister i op2
    if type = .ASR then add_asr i w dst op1 op2 else i.add (.binop w type dst op1 op2)
  | .ite _ dst pred trueOp falseOp =>
    let (i, dst) := allocateRegister i dst
    let (i, pred) := allocateRegister i pred
    let (i, trueOp) := allocateRegister i trueOp
    let (i, falseOp) := allocateRegister i falseOp
    i.add (.ite dst pred trueOp falseOp)
  | .cast type dst op =>
    let (i, dst) := allocateRegister i dst
    let (i, op) := allocateRegister i op
    i.add (.cast type dst op)
  | .exit value pred =>
    let (i, value) := allocateRegister i value
    let (i, pred) := allocateOptional i pred
    add_exit i value pred
  | .call address param result =>
    let (i, p0) := allocateOptional i (param 0)
    let (i, p1) := allocateOptional i (param 1)
    let (i, p2) := allocateOptional i (param 2)
    let (i, p3) := allocateOptional i (param 3)
    let (i, result) := allocateOptional i result
    let (i, address) := allocateRegister i address
    i.add (.call address ![p0, p1, p2, p3] result)
  | .read_context w dst offset =>
    -- if register is never use then drop the read
    if lastReadIndex dst.index ≠ none then
      let (i, dst) := allocateRegister i dst
      i.add (.read w dst offset)
    else i
  | .write_context w src offset =>
    let (i, src) := allocateRegister i src
    i.add (.write w src offset)
  | .marker value => i.add (.marker value)

def allocateInstructions (j : jitter) : inter :=
  j.insns.foldl (allocateInstruction j.lastReadIndex) reset

/-! ## Register allocation -/

/-- What the loop of `allocateRegisters` does in each of its cases: the register
    written is chosen while those read are still taken, and then those read for the
    last time are given back. -/
def x86Instruction.access (insn : x86Instruction) : LinearScan.access Nat :=
  ⟨insn.reads, insn.dst.toList⟩

/-- `allocateRegisters`: the `index` field of the registers at the end.
    `LinearScan.first_free` is `getFreeRegRaw`, whose failed assert is `none`, and
    `LinearScan.take` is `getFreeReg`. -/
def allocateRegisters (i : inter) : Option (LinearScan.places Nat) :=
  LinearScan.scan REG_NUMBER i.lastReadIndex 0 (i.insns.map x86Instruction.access)
    ⟨fun _ => true, id⟩

end Umeq.Jitter.X86_64
