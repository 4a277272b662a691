import Umeq.Jitter.X8664.Backend
import Umeq.Lib.Bytes

/-! # The x86_64 back end: code generation

    Each `gen_*` gives the bytes that it puts in the buffer. A register is given by
    its `index`, from 0 for `r8` to 7 for `r15`.
-/

namespace Umeq.Jitter.X86_64

open Bytes Words

def REX_OPCODE : Nat := 0x40
def REX_W : Nat := 0x08
def REX_R : Nat := 0x04
def REX_B : Nat := 0x01

def MODRM_MODE_2 : Nat := 0x80
def MODRM_MODE_3 : Nat := 0xC0
def MODRM_REG_SHIFT : Nat := 3
def SIB_SCALE_SHIFT : Nat := 6
def SIB_INDEX_SHIFT : Nat := 3

/-- A value stored in the buffer. -/
def byte (n : Nat) : UInt8 := UInt8.ofNat n

/-! ## Moves -/

def gen_mov_const_hlp (dst : Nat) (value : BitVec 64) : List UInt8 :=
  if value ≠ 0 then
    [byte (REX_OPCODE ||| REX_W ||| REX_B), byte (0xb8 + dst)] ++ le 8 value.toNat
  else [byte (REX_OPCODE ||| REX_R ||| REX_B), 0x31, byte (0xc0 ||| dst <<< 3 ||| dst)]

/-- The size prefix and the opcode of the moves from and to memory. -/
def gen_size (w : width) (rex : Nat) (opcode8 opcode : UInt8) : List UInt8 :=
  match w with
  | .w8 => [byte (REX_OPCODE ||| rex), opcode8]
  | .w16 => [0x66, byte (REX_OPCODE ||| rex), opcode]
  | .w32 => [byte (REX_OPCODE ||| rex), opcode]
  | .w64 => [byte (REX_OPCODE ||| rex ||| REX_W), opcode]

/-- Address is sib+disp32. -/
def gen_sib (reg address : Nat) : List UInt8 :=
  [byte (MODRM_MODE_2 ||| reg <<< MODRM_REG_SHIFT ||| 4),
    byte (0 <<< SIB_SCALE_SHIFT ||| 4 <<< SIB_INDEX_SHIFT ||| address), 0, 0, 0, 0]

/-- Address is rdi+disp32. -/
def gen_context (reg : Nat) (offset : BitVec 32) : List UInt8 :=
  byte (MODRM_MODE_2 ||| reg <<< MODRM_REG_SHIFT ||| 7) :: le 4 offset.toNat

/-- `gen_load_8` to `gen_load_64`. -/
def gen_load (w : width) (dst address : Nat) : List UInt8 :=
  gen_size w (REX_R ||| REX_B) 0x8a 0x8b ++ gen_sib dst address

/-- `gen_store_8` to `gen_store_64`. They read the fields of a load, which lie where
    those of a store do. -/
def gen_store (w : width) (src address : Nat) : List UInt8 :=
  gen_size w (REX_R ||| REX_B) 0x88 0x89 ++ gen_sib src address

/-- `gen_read_8` to `gen_read_64`. -/
def gen_read (w : width) (dst : Nat) (offset : BitVec 32) : List UInt8 :=
  gen_size w REX_R 0x8a 0x8b ++ gen_context dst offset

/-- `gen_write_8` to `gen_write_64`. -/
def gen_write (w : width) (src : Nat) (offset : BitVec 32) : List UInt8 :=
  gen_size w REX_R 0x88 0x89 ++ gen_context src offset

def gen_move_reg_low (low_index src : Nat) : List UInt8 :=
  [byte (REX_OPCODE ||| REX_B ||| REX_W), 0x8b,
    byte (MODRM_MODE_3 ||| low_index <<< MODRM_REG_SHIFT ||| src)]

def gen_move_reg_from_low (low_index dst : Nat) : List UInt8 :=
  [byte (REX_OPCODE ||| REX_R ||| REX_W), 0x8b,
    byte (MODRM_MODE_3 ||| dst <<< MODRM_REG_SHIFT ||| low_index)]

def gen_move_reg (dst src : Nat) : List UInt8 :=
  [byte (REX_OPCODE ||| REX_R ||| REX_B ||| REX_W), 0x8b,
    byte (MODRM_MODE_3 ||| dst <<< MODRM_REG_SHIFT ||| src)]

/-! ## Exits -/

/-- Compare a register with zero. -/
def gen_cmp_zero (reg : Nat) : List UInt8 :=
  [byte (REX_OPCODE ||| REX_B ||| REX_W), 0x81,
    byte (MODRM_MODE_3 ||| 7 <<< MODRM_REG_SHIFT ||| reg), 0, 0, 0, 0]

/-- `lea rdx, [rip]`. -/
def gen_lea_rdx : List UInt8 := [0x48, 0x8d, 0x15, 0, 0, 0, 0]

/-- The exit sequence; `hole` is what the buffer holds where the target of the jump
    will be patched in. -/
def gen_exit_sequence (value : Nat) (is_patchable : Bool) (hole : List UInt8) : List UInt8 :=
  gen_move_reg_low 0 value ++
  (if is_patchable then gen_lea_rdx else [byte REX_OPCODE, 0x31, byte (0xc0 ||| 2 <<< 3 ||| 2)]) ++
  [0xc3] ++
  if is_patchable then [0x48, 0xb8] ++ hole ++ [0xff, 0xe0] ++ gen_lea_rdx else []

def gen_exit (value : Nat) (pred : Option Nat) (is_patchable : Bool) (hole : List UInt8) :
    List UInt8 :=
  let sequence := gen_exit_sequence value is_patchable hole
  match pred with
  | some pred => gen_cmp_zero pred ++ [0x74, byte sequence.length] ++ sequence
  | none => sequence

/-! ## Operations -/

def gen_cmp (isEq : Bool) (dst op1 op2 : Nat) : List UInt8 :=
  let set_false := gen_mov_const_hlp dst 0
  gen_mov_const_hlp dst (BitVec.allOnes 64) ++
  [byte (REX_OPCODE ||| REX_R ||| REX_B ||| REX_W), 0x3b,
    byte (MODRM_MODE_3 ||| op2 <<< MODRM_REG_SHIFT ||| op1)] ++
  [(if isEq then 0x74 else 0x75 : UInt8), byte set_false.length] ++ set_false

def gen_unop (subtype dst op1 op2 : Nat) : List UInt8 :=
  gen_move_reg_low 1 op2 ++ gen_move_reg dst op1 ++
  [byte (REX_OPCODE ||| REX_B ||| REX_W), 0xd3,
    byte (MODRM_MODE_3 ||| subtype <<< MODRM_REG_SHIFT ||| dst)]

def gen_ror (w : width) (dst op1 op2 : Nat) : List UInt8 :=
  gen_move_reg_low 1 op2 ++ gen_move_reg dst op1 ++
  (if w = .w16 then [(0x66 : UInt8)] else []) ++
  [byte (REX_OPCODE ||| REX_B ||| if w = .w64 then REX_W else 0), if w = .w8 then 0xd2 else 0xd3,
    byte (MODRM_MODE_3 ||| 1 <<< MODRM_REG_SHIFT ||| dst)]

def gen_alu (opcode : UInt8) (dst op1 op2 : Nat) : List UInt8 :=
  gen_move_reg dst op1 ++
  [byte (REX_OPCODE ||| REX_R ||| REX_B ||| REX_W), opcode,
    byte (MODRM_MODE_3 ||| op2 <<< MODRM_REG_SHIFT ||| dst)]

/-- Mask the result. `generateCode` gives no mask for 64 bits. -/
def gen_mask (w : width) (dst : Nat) : List UInt8 :=
  if w = .w64 then []
  else
    [byte (REX_OPCODE ||| REX_W), byte (0xb8 + 1)] ++ le 8 (mask w).toNat ++
    [byte (REX_OPCODE ||| REX_B ||| REX_W), 0x21,
      byte (MODRM_MODE_3 ||| 1 <<< MODRM_REG_SHIFT ||| dst)]

def gen_binop (w : width) (type : irBinopType) (dst op1 op2 : Nat) : List UInt8 :=
  (match type with
    | .CMPEQ => gen_cmp true dst op1 op2
    | .CMPNE => gen_cmp false dst op1 op2
    | .SHL => gen_unop 4 dst op1 op2
    | .SHR => gen_unop 5 dst op1 op2
    | .ASR => gen_unop 7 dst op1 op2
    | .ROR => gen_ror w dst op1 op2
    | .ADD => gen_alu 0x01 dst op1 op2
    | .SUB => gen_alu 0x29 dst op1 op2
    | .XOR => gen_alu 0x31 dst op1 op2
    | .AND => gen_alu 0x21 dst op1 op2
    | .OR => gen_alu 0x09 dst op1 op2) ++ gen_mask w dst

def gen_ite (dst pred trueOp falseOp : Nat) : List UInt8 :=
  gen_move_reg dst falseOp ++ gen_cmp_zero pred ++
  [byte (REX_OPCODE ||| REX_R ||| REX_B ||| REX_W), 0x0f, 0x45,
    byte (MODRM_MODE_3 ||| dst <<< MODRM_REG_SHIFT ||| trueOp)]

def gen_upper_unsigned_cast_hlp (dst op : Nat) (mask : BitVec 64) : List UInt8 :=
  gen_mov_const_hlp dst mask ++
  [byte (REX_OPCODE ||| REX_R ||| REX_B ||| REX_W), 0x21,
    byte (MODRM_MODE_3 ||| op <<< MODRM_REG_SHIFT ||| dst)]

def gen_upper_signed_cast_hlp (dst op shift_value : Nat) : List UInt8 :=
  gen_move_reg dst op ++
  [byte (REX_OPCODE ||| REX_B ||| REX_W), 0xc1,
    byte (MODRM_MODE_3 ||| 4 <<< MODRM_REG_SHIFT ||| dst), byte shift_value,
    byte (REX_OPCODE ||| REX_B ||| REX_W), 0xc1,
    byte (MODRM_MODE_3 ||| 7 <<< MODRM_REG_SHIFT ||| dst), byte shift_value]

def gen_cast (type : irCastType) (dst op : Nat) : List UInt8 :=
  match type with
  | .c8U_TO_16 | .c8U_TO_32 | .c8U_TO_64 => gen_upper_unsigned_cast_hlp dst op 0xff
  | .c16U_TO_32 | .c16U_TO_64 => gen_upper_unsigned_cast_hlp dst op 0xffff
  | .c32U_TO_64 => gen_upper_unsigned_cast_hlp dst op 0xffffffff
  | .c8S_TO_16 | .c8S_TO_32 | .c8S_TO_64 => gen_upper_signed_cast_hlp dst op 56
  | .c16S_TO_32 | .c16S_TO_64 => gen_upper_signed_cast_hlp dst op 48
  | .c32S_TO_64 => gen_upper_signed_cast_hlp dst op 32
  | .c64_TO_8 | .c32_TO_8 | .c16_TO_8 => gen_upper_unsigned_cast_hlp dst op 0xff
  | .c64_TO_16 | .c32_TO_16 => gen_upper_unsigned_cast_hlp dst op 0xffff
  | .c64_TO_32 => gen_upper_unsigned_cast_hlp dst op 0xffffffff

/-! ## Calls -/

def gen_push_hlp (index : Nat) : List UInt8 :=
  [byte (if index ≥ 8 then REX_OPCODE ||| REX_B ||| REX_W else REX_OPCODE ||| REX_W),
    byte (0x50 + index % 8)]

def gen_pop_hlp (index : Nat) : List UInt8 :=
  [byte (if index ≥ 8 then REX_OPCODE ||| REX_B ||| REX_W else REX_OPCODE ||| REX_W),
    byte (0x58 + index % 8)]

/-- The registers saved around a call; `r12` only keeps sp align on 16 bytes. -/
def saved : List Nat := [7, 8, 9, 10, 11, 12]

/-- A parameter that is there, moved to its register. -/
def gen_param (move : Nat → List UInt8) (param : Option Nat) : List UInt8 :=
  match param with
  | some src => move src
  | none => []

def gen_call (address : Nat) (param : Fin 4 → Option Nat) (result : Option Nat) : List UInt8 :=
  saved.flatMap gen_push_hlp ++
  gen_move_reg_low 0 address ++
  gen_param (gen_move_reg_low 1) (param 2) ++
  gen_param (gen_move_reg_low 2) (param 1) ++
  gen_param (gen_move_reg_low 6) (param 0) ++
  -- do r8 last in case it's use into others param
  gen_param (gen_move_reg 0) (param 3) ++
  [byte (REX_OPCODE ||| REX_W), 0xff, byte (MODRM_MODE_3 ||| 2 <<< MODRM_REG_SHIFT ||| 0)] ++
  saved.reverse.flatMap gen_pop_hlp ++
  gen_param (gen_move_reg_from_low 0) result

/-! ## Code generation -/

/-- The code of an instruction. A marker has none: `generateCode` asserts. -/
def gen (index : Nat → Nat) (hole : List UInt8) : x86Instruction → Option (List UInt8)
  | .mov_const dst value => some (gen_mov_const_hlp (index dst) value)
  | .load w dst address => some (gen_load w (index dst) (index address))
  | .store w src address => some (gen_store w (index src) (index address))
  | .binop w type dst op1 op2 => some (gen_binop w type (index dst) (index op1) (index op2))
  | .exit value pred is_patchable =>
    some (gen_exit (index value) (pred.map index) is_patchable hole)
  | .ite dst pred trueOp falseOp =>
    some (gen_ite (index dst) (index pred) (index trueOp) (index falseOp))
  | .cast type dst op => some (gen_cast type (index dst) (index op))
  | .call address param result =>
    some (gen_call (index address) (fun i => (param i).map index) (result.map index))
  | .read w dst offset => some (gen_read w (index dst) offset)
  | .write w src offset => some (gen_write w (index src) offset)
  | .marker _ => none

/-- `generateCode`. The bytes that an exit leaves as they were depend on what the
    buffer held; `hole` gives them for each instruction. -/
def generateCode (index : Nat → Nat) (hole : Nat → List UInt8) :
    Nat → List x86Instruction → Option (List UInt8)
  | _, [] => some []
  | k, insn :: insns => do
    let code ← gen index (hole k) insn
    let rest ← generateCode index hole (k + 1) insns
    some (code ++ rest)

/-- `jit`. -/
def jit (j : jitter) (hole : Nat → List UInt8) : Option (List UInt8) := do
  let i := allocateInstructions j
  let a ← allocateRegisters i
  generateCode a.index hole 0 i.insns

/-- Code generation looks at the places of the operands and of the result only. -/
theorem gen_congr {f g : Nat → Nat} {hole : List UInt8} {insn : x86Instruction}
    (hreads : ∀ v ∈ insn.reads, f v = g v) (hdst : ∀ d, insn.dst = some d → f d = g d) :
    gen f hole insn = gen g hole insn := by
  cases insn with
  | mov_const dst _ | read _ dst _ => simp only [gen, hdst dst rfl]
  | load _ dst address =>
    simp only [gen, hdst dst rfl, hreads address (by simp [x86Instruction.reads])]
  | store _ src address =>
    simp only [gen, hreads src (by simp [x86Instruction.reads]),
      hreads address (by simp [x86Instruction.reads])]
  | binop _ _ dst op1 op2 =>
    simp only [gen, hdst dst rfl, hreads op1 (by simp [x86Instruction.reads]),
      hreads op2 (by simp [x86Instruction.reads])]
  | ite dst pred trueOp falseOp =>
    simp only [gen, hdst dst rfl, hreads pred (by simp [x86Instruction.reads]),
      hreads trueOp (by simp [x86Instruction.reads]), hreads falseOp (by simp [x86Instruction.reads])]
  | cast _ dst op => simp only [gen, hdst dst rfl, hreads op (by simp [x86Instruction.reads])]
  | exit value pred _ =>
    have hpred : pred.map f = pred.map g :=
      Option.map_congr fun q hq => hreads q (List.mem_cons_of_mem _ (Option.mem_toList.mpr hq))
    simp only [gen, hpred, hreads value (by simp [x86Instruction.reads])]
  | call address param result =>
    have hparam := map_params_congr fun v hv => hreads v (List.mem_cons_of_mem _ hv)
    have hresult : result.map f = result.map g := Option.map_congr hdst
    simp only [gen, hparam, hresult, hreads address (by simp [x86Instruction.reads])]
  | write _ src _ => simp only [gen, hreads src (by simp [x86Instruction.reads])]
  | marker _ => rfl

end Umeq.Jitter.X86_64
