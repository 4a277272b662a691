import Umeq.Jitter.I386.Emit
import Umeq.Lib.Shifts

/-! # What the code of a 32-bit operation leaves

    The registers of the representation are words of the frame. The code of an operation on 32
    bits loads two of them, computes in `eax` and stores the result; a shift takes its amount
    from `cl`, modulo 32.
-/

namespace Umeq.Jitter.I386

open Words Shifts

/-! ## The host -/

/-- The registers that the code works in, and the words of the frame by their offset. -/
structure frame where
  eax : BitVec 32
  ecx : BitVec 32
  word : UInt8 → BitVec 32

/-- A `mod r/m` byte for `eax` or `ecx` and a word below `ebp`. -/
def modrm_frame (physical : Nat) : UInt8 :=
  byte (MODRM_MODE_1 ||| EBP <<< MODRM_RM_SHIFT ||| physical <<< MODRM_REG_SHIFT)

/-- Those for `eax` and `ecx`, and for a shift of `eax`. -/
def modrm_alu : UInt8 := byte (MODRM_MODE_3 ||| ECX <<< MODRM_REG_SHIFT ||| EAX)

def modrm_shift (subtype : Nat) : UInt8 := byte (MODRM_MODE_3 ||| subtype <<< MODRM_REG_SHIFT ||| EAX)

/-- The instructions that the code is made of. -/
def frame.alu (f : frame) (opcode : UInt8) : Option frame :=
  if opcode = 0x01 then some { f with eax := f.eax + f.ecx }
  else if opcode = 0x29 then some { f with eax := f.eax - f.ecx }
  else if opcode = 0x31 then some { f with eax := f.eax ^^^ f.ecx }
  else if opcode = 0x21 then some { f with eax := f.eax &&& f.ecx }
  else if opcode = 0x09 then some { f with eax := f.eax ||| f.ecx }
  else none

def frame.shift (f : frame) (modrm : UInt8) : Option frame :=
  let cl := f.ecx.toNat % 256
  if modrm = modrm_shift 4 then some { f with eax := f.eax <<< (cl % 32) }
  else if modrm = modrm_shift 5 then some { f with eax := f.eax >>> (cl % 32) }
  else if modrm = modrm_shift 7 then some { f with eax := f.eax.sshiftRight (cl % 32) }
  else none

/-- Runs the code to its end. -/
def frame.run : List UInt8 → frame → Option frame
  | [], f => some f
  | 0x8b :: modrm :: disp :: code, f =>
    if modrm = modrm_frame EAX then frame.run code { f with eax := f.word disp }
    else if modrm = modrm_frame ECX then frame.run code { f with ecx := f.word disp }
    else none
  | 0x89 :: modrm :: disp :: code, f =>
    if modrm = modrm_frame EAX then
      frame.run code { f with word := Function.update f.word disp f.eax }
    else none
  | 0xd3 :: modrm :: code, f => (f.shift modrm).bind (frame.run code)
  | opcode :: modrm :: code, f =>
    if modrm = modrm_alu then (f.alu opcode).bind (frame.run code) else none
  | _, _ => none

/-! ## The operations -/

/-- The operations without a jump in their code, the rotation apart. -/
inductive word_op where
  | ADD | SUB | XOR | AND | OR | SHL | SHR | ASR
  deriving DecidableEq, Repr

def word_op.type : word_op → irBinopType
  | .ADD => .ADD | .SUB => .SUB | .XOR => .XOR | .AND => .AND | .OR => .OR
  | .SHL => .SHL | .SHR => .SHR | .ASR => .ASR

/-- What the code computes. The amount of a shift is a byte. -/
def word_op.result (o : word_op) (x y : BitVec 32) : BitVec 32 :=
  match o with
  | .ADD => x + y
  | .SUB => x - y
  | .XOR => x ^^^ y
  | .AND => x &&& y
  | .OR => x ||| y
  | .SHL => host_shl x (y.toNat % 256)
  | .SHR => host_shr x (y.toNat % 256)
  | .ASR => host_sar x (y.toNat % 256)

/-- The word of the frame that stands for a register. -/
def frame.get (f : frame) (r : x86Register) : BitVec 32 := f.word (VREG_OFFSET r.index)

/-- The code stores the result in the word of `dst`, and changes no other word. -/
theorem run_gen_binop (o : word_op) (dst op1 op2 : x86Register) (f : frame) :
    frame.run (gen_binop .w32 o.type dst op1 op2) f = some {
      eax := o.result (f.get op1) (f.get op2)
      ecx := f.get op2
      word := Function.update f.word (VREG_OFFSET dst.index) (o.result (f.get op1) (f.get op2)) } := by
  cases o <;> rfl

end Umeq.Jitter.I386
