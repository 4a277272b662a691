import Umeq.Lib.Bytes
import Umeq.Lib.Width

/-! # The intermediate representation of `jitter.c`

    A disassembler describes a guest block with the `add_*` builders. Each call adds
    one instruction and, for most of them, a new virtual register to hold its
    result. The builders keep, for each register, the last instruction that reads
    it; the back ends rely on it.

    The pools that hold registers and instructions are not modelled: they are
    allocated in order and their size is a limit of the embedding program.
-/

namespace Umeq.Jitter

open Words

/-! ## Registers and instructions -/

/-- `struct irRegister`. The mutable `lastReadIndex` is in `jitter`. -/
structure irRegister where
  type : width
  index : Nat
  deriving DecidableEq, Repr

/-- `enum irBinopType`; the width is kept apart. -/
inductive irBinopType where
  | ADD | SUB | XOR | AND | OR | SHL | SHR | ASR | ROR | CMPEQ | CMPNE
  deriving DecidableEq, Repr

/-- `enum irCastType`. -/
inductive irCastType where
  | c8U_TO_16 | c8U_TO_32 | c8U_TO_64
  | c8S_TO_16 | c8S_TO_32 | c8S_TO_64
  | c16U_TO_32 | c16U_TO_64
  | c16S_TO_32 | c16S_TO_64
  | c32U_TO_64
  | c32S_TO_64
  | c64_TO_8 | c32_TO_8 | c16_TO_8
  | c64_TO_16 | c32_TO_16
  | c64_TO_32
  deriving DecidableEq, Repr

/-- The width a cast reads. -/
def irCastType.source : irCastType → width
  | .c8U_TO_16 | .c8U_TO_32 | .c8U_TO_64 | .c8S_TO_16 | .c8S_TO_32 | .c8S_TO_64 => .w8
  | .c16U_TO_32 | .c16U_TO_64 | .c16S_TO_32 | .c16S_TO_64 | .c16_TO_8 => .w16
  | .c32U_TO_64 | .c32S_TO_64 | .c32_TO_8 | .c32_TO_16 => .w32
  | .c64_TO_8 | .c64_TO_16 | .c64_TO_32 => .w64

/-- The width a cast gives. -/
def irCastType.target : irCastType → width
  | .c64_TO_8 | .c32_TO_8 | .c16_TO_8 => .w8
  | .c8U_TO_16 | .c8S_TO_16 | .c64_TO_16 | .c32_TO_16 => .w16
  | .c8U_TO_32 | .c8S_TO_32 | .c16U_TO_32 | .c16S_TO_32 | .c64_TO_32 => .w32
  | .c8U_TO_64 | .c8S_TO_64 | .c16U_TO_64 | .c16S_TO_64 | .c32U_TO_64 | .c32S_TO_64 => .w64

def irCastType.signed : irCastType → Bool
  | .c8S_TO_16 | .c8S_TO_32 | .c8S_TO_64 | .c16S_TO_32 | .c16S_TO_64 | .c32S_TO_64 => true
  | _ => false

/-- `struct irInstruction`. The width is that of the instruction type. -/
inductive irInstruction where
  | mov (w : width) (dst : irRegister) (value : BitVec 64)
  | load (w : width) (dst address : irRegister)
  | store (w : width) (src address : irRegister)
  | binop (type : irBinopType) (w : width) (dst op1 op2 : irRegister)
  | call (address : irRegister) (param : Fin 4 → Option irRegister) (result : Option irRegister)
  | ite (w : width) (dst pred trueOp falseOp : irRegister)
  | cast (type : irCastType) (dst op : irRegister)
  | exit (value : irRegister) (pred : Option irRegister)
  | read_context (w : width) (dst : irRegister) (offset : BitVec 32)
  | write_context (w : width) (src : irRegister) (offset : BitVec 32)
  | marker (value : BitVec 32)
  deriving DecidableEq

/-- The registers that an instruction reads. -/
def irInstruction.reads : irInstruction → List irRegister
  | .mov _ _ _ | .read_context _ _ _ | .marker _ => []
  | .load _ _ address => [address]
  | .store _ src address => [address, src]
  | .binop _ _ _ op1 op2 => [op1, op2]
  | .call address param _ => address :: (List.ofFn param).reduceOption
  | .ite _ _ pred trueOp falseOp => [pred, trueOp, falseOp]
  | .cast _ _ op => [op]
  | .exit value pred => value :: pred.toList
  | .write_context _ src _ => [src]

/-- The register that an instruction writes. -/
def irInstruction.dst : irInstruction → Option irRegister
  | .mov _ dst _ | .load _ dst _ | .binop _ _ dst _ _ | .ite _ dst _ _ _ | .cast _ dst _
  | .read_context _ dst _ => some dst
  | .call _ _ result => result
  | .store _ _ _ | .exit _ _ | .write_context _ _ _ | .marker _ => none

/-! ## Builders -/

/-- `struct jitter`: the instructions so far and, by register index, the types and
    the last instruction that reads each register (`none` is -1). -/
structure jitter where
  insns : List irInstruction
  types : List width
  lastReadIndex : Nat → Option Nat

def resetJitter : jitter := ⟨[], [], fun _ => none⟩

/-- The registers of a jitter. -/
def jitter.has (j : jitter) (r : irRegister) : Prop := j.types[r.index]? = some r.type

instance (j : jitter) (r : irRegister) : Decidable (j.has r) :=
  inferInstanceAs (Decidable (_ = _))

/-- Add an instruction, with the index of the current one set in what it reads. -/
def jitter.add (j : jitter) (insn : irInstruction) : jitter :=
  { j with
    insns := j.insns ++ [insn]
    lastReadIndex := fun r =>
      if r ∈ insn.reads.map irRegister.index then some j.insns.length else j.lastReadIndex r }

/-- `allocateRegister`. -/
def allocateRegister (j : jitter) (type : width) : jitter × irRegister :=
  ({ j with types := j.types ++ [type] }, ⟨type, j.types.length⟩)

/-- An instruction with a result. -/
def jitter.add_dst (j : jitter) (type : width) (insn : irRegister → irInstruction) :
    jitter × irRegister :=
  let (j, dst) := allocateRegister j type
  (j.add (insn dst), dst)

def add_mov_const (w : width) (value : BitVec 64) (j : jitter) : jitter × irRegister :=
  j.add_dst w fun dst => .mov w dst value

def add_load (w : width) (address : irRegister) (j : jitter) : jitter × irRegister :=
  j.add_dst w fun dst => .load w dst address

def add_store (w : width) (src address : irRegister) (j : jitter) : Option jitter :=
  if src.type = w then some (j.add (.store w src address)) else none

/-- The type that the builders of an operation ask of their second operand. -/
def irBinopType.op2_type (w : width) : irBinopType → width
  | .SHL | .SHR | .ASR | .ROR => .w8
  | _ => w

def add_binop (type : irBinopType) (w : width) (op1 op2 : irRegister) (j : jitter) :
    Option (jitter × irRegister) :=
  if op1.type = w ∧ op2.type = type.op2_type w then
    some (j.add_dst op1.type fun dst => .binop type w dst op1 op2)
  else none

def add_call_void (address : irRegister) (param : Fin 4 → Option irRegister) (j : jitter) : jitter :=
  j.add (.call address param none)

def add_call (w : width) (address : irRegister) (param : Fin 4 → Option irRegister) (j : jitter) :
    jitter × irRegister :=
  j.add_dst w fun result => .call address param (some result)

/-- The width in the name of an `add_ite` only chooses the instruction type. -/
def add_ite (w : width) (pred trueOp falseOp : irRegister) (j : jitter) :
    Option (jitter × irRegister) :=
  if pred.type = trueOp.type ∧ pred.type = falseOp.type then
    some (j.add_dst trueOp.type fun dst => .ite w dst pred trueOp falseOp)
  else none

def add_cast (type : irCastType) (op : irRegister) (j : jitter) : jitter × irRegister :=
  j.add_dst type.target fun dst => .cast type dst op

def add_exit_cond (exitValue : irRegister) (pred : Option irRegister) (j : jitter) : Option jitter :=
  if exitValue.type = .w64 then some (j.add (.exit exitValue pred)) else none

def add_read_context (w : width) (offset : BitVec 32) (j : jitter) : jitter × irRegister :=
  j.add_dst w fun dst => .read_context w dst offset

def add_write_context (w : width) (src : irRegister) (offset : BitVec 32) (j : jitter) : jitter :=
  j.add (.write_context w src offset)

def add_insn_marker (value : BitVec 32) (j : jitter) : jitter := j.add (.marker value)

/-- What can be built: the operands of a call are registers that earlier calls have
    returned, and its asserts hold. -/
inductive Built : jitter → Prop where
  | reset : Built resetJitter
  | mov_const {j} (w value) : Built j → Built (add_mov_const w value j).1
  | load {j} (w address) : Built j → j.has address → Built (add_load w address j).1
  | store {j j'} (w src address) : Built j → j.has src → j.has address →
      add_store w src address j = some j' → Built j'
  | binop {j j' dst} (type w op1 op2) : Built j → j.has op1 → j.has op2 →
      add_binop type w op1 op2 j = some (j', dst) → Built j'
  | call_void {j} (address param) : Built j → j.has address →
      (∀ i r, param i = some r → j.has r) → Built (add_call_void address param j)
  | call {j} (w address param) : Built j → j.has address →
      (∀ i r, param i = some r → j.has r) → Built (add_call w address param j).1
  | ite {j j' dst} (w pred trueOp falseOp) : Built j → j.has pred → j.has trueOp →
      j.has falseOp → add_ite w pred trueOp falseOp j = some (j', dst) → Built j'
  | cast {j} (type op) : Built j → j.has op → Built (add_cast type op j).1
  | exit {j j'} (exitValue pred) : Built j → j.has exitValue → (∀ r, pred = some r → j.has r) →
      add_exit_cond exitValue pred j = some j' → Built j'
  | read_context {j} (w offset) : Built j → Built (add_read_context w offset j).1
  | write_context {j} (w src offset) : Built j → j.has src →
      Built (add_write_context w src offset j)
  | insn_marker {j} (value) : Built j → Built (add_insn_marker value j)

end Umeq.Jitter
