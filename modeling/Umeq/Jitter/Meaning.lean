import Umeq.Jitter.Ir

/-! # The reference meaning of the intermediate representation

    Every operation works modulo 2^w of its width. This is a statement of what the
    representation is for; the back ends are compared with it.

    A virtual register holds its value extended with zeros to 64 bits. The guest
    context is a part of the memory, at the address `context`. A program has no
    meaning where it shifts by the width or more, calls a helper with less than
    the helper reads, or runs past its last instruction.
-/

namespace Umeq.Jitter

open Bytes Words

/-- The helpers that a block can call. `reads` tells how many bits a helper takes of
    each of its parameters, which are those of their C types. -/
structure helpers where
  reads : BitVec 64 → Fin 4 → Nat
  run : BitVec 64 → BitVec 64 → (Fin 4 → BitVec 64) → Mem → Mem × BitVec 64

/-- The arguments as a helper sees them. -/
def helpers.seen (h : helpers) (address : BitVec 64) (args : Fin 4 → BitVec 64) :
    Fin 4 → BitVec 64 :=
  fun i => ((args i).setWidth (h.reads address i)).setWidth 64

structure ir_state where
  env : Nat → BitVec 64
  mem : Mem
  /-- The helper calls made. -/
  calls : List (BitVec 64 × (Fin 4 → BitVec 64))

/-- The value of a register. -/
def ir_state.get (s : ir_state) (r : irRegister) : BitVec 64 := low r.type (s.env r.index)

def ir_state.set (s : ir_state) (r : irRegister) (v : BitVec 64) : ir_state :=
  { s with env := Function.update s.env r.index (low r.type v) }

def context_address (context : BitVec 64) (offset : BitVec 32) : Nat :=
  (context + offset.signExtend 64).toNat

/-- All ones when the comparison holds. -/
def truth (b : Bool) : BitVec 64 := if b then BitVec.allOnes 64 else 0

/-- A binary operation on values of width `w`. -/
def irBinopType.eval (type : irBinopType) (w : width) (x y : BitVec 64) : BitVec 64 :=
  match type with
  | .ADD => low w (x + y)
  | .SUB => low w (x - y)
  | .XOR => low w (x ^^^ y)
  | .AND => low w (x &&& y)
  | .OR => low w (x ||| y)
  | .SHL => low w (x <<< y.toNat)
  | .SHR => low w x >>> y.toNat
  | .ASR => ((x.setWidth w.bits).sshiftRight y.toNat).setWidth 64
  | .ROR => ((x.setWidth w.bits).rotateRight y.toNat).setWidth 64
  | .CMPEQ => low w (truth (low w x = low w y))
  | .CMPNE => low w (truth (low w x ≠ low w y))

/-- Shifts have a meaning for amounts below the width. -/
def irBinopType.defined (type : irBinopType) (w : width) (y : BitVec 64) : Prop :=
  match type with
  | .SHL | .SHR | .ASR | .ROR => y.toNat < w.bits
  | _ => True

instance (type : irBinopType) (w : width) (y : BitVec 64) : Decidable (type.defined w y) :=
  match type with
  | .SHL | .SHR | .ASR | .ROR => inferInstanceAs (Decidable (_ < _))
  | .ADD | .SUB | .XOR | .AND | .OR | .CMPEQ | .CMPNE => inferInstanceAs (Decidable True)

def irCastType.eval (type : irCastType) (x : BitVec 64) : BitVec 64 :=
  let x := x.setWidth type.source.bits
  low type.target (if type.signed then x.signExtend 64 else x.setWidth 64)

/-- The parameters of a call. -/
def ir_state.args (s : ir_state) (param : Fin 4 → Option irRegister) : Fin 4 → BitVec 64 :=
  fun i => ((param i).map s.get).getD 0

/-- The bits that a call passes for each parameter. -/
def passed (param : Fin 4 → Option irRegister) (i : Fin 4) : Nat :=
  ((param i).map fun r => r.type.bits).getD 0

inductive ir_outcome where
  | next (s : ir_state)
  | exit (value : BitVec 64) (s : ir_state)

def ir_state.call (s : ir_state) (h : helpers) (context address : BitVec 64)
    (args : Fin 4 → BitVec 64) : ir_state × BitVec 64 :=
  let (mem, result) := h.run address context (h.seen address args) s.mem
  ({ s with mem := mem, calls := s.calls ++ [(address, h.seen address args)] }, result)

/-- One instruction. -/
def irInstruction.exec (h : helpers) (context : BitVec 64) (s : ir_state) :
    irInstruction → Option ir_outcome
  | .mov _ dst value => some (.next (s.set dst value))
  | .load w dst address =>
    some (.next (s.set dst (BitVec.ofNat 64 (s.mem.load (s.get address).toNat w.bytes))))
  | .store w src address =>
    some (.next { s with mem := s.mem.store (s.get address).toNat w.bytes (s.get src).toNat })
  | .binop type w dst op1 op2 =>
    if type.defined w (s.get op2) then
      some (.next (s.set dst (type.eval w (s.get op1) (s.get op2))))
    else none
  | .call address param result =>
    if ∀ i, h.reads (s.get address) i ≤ passed param i then
      let (s, v) := s.call h context (s.get address) (s.args param)
      some (.next (match result with
        | some r => s.set r v
        | none => s))
    else none
  | .ite _ dst pred trueOp falseOp =>
    some (.next (s.set dst (if s.get pred ≠ 0 then s.get trueOp else s.get falseOp)))
  | .cast type dst op => some (.next (s.set dst (type.eval (s.get op))))
  | .exit value pred =>
    if ∀ p, pred = some p → s.get p ≠ 0 then some (.exit (s.get value) s) else some (.next s)
  | .read_context w dst offset =>
    some (.next (s.set dst (BitVec.ofNat 64 (s.mem.load (context_address context offset) w.bytes))))
  | .write_context w src offset =>
    some (.next { s with
      mem := s.mem.store (context_address context offset) w.bytes (s.get src).toNat })
  | .marker _ => some (.next s)

/-- A program runs until it exits. -/
def ir_run (h : helpers) (context : BitVec 64) : List irInstruction → ir_state →
    Option (BitVec 64 × ir_state)
  | [], _ => none
  | insn :: insns, s => do
    match ← insn.exec h context s with
    | .next s => ir_run h context insns s
    | .exit value s => some (value, s)

end Umeq.Jitter
