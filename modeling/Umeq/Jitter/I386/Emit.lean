import Umeq.Jitter.I386.Backend
import Umeq.Lib.Bytes

/-! # The i386 back end: code generation

    Each `gen_*` gives the bytes that it puts in the buffer. A virtual register is a word
    below `ebp`; the code works in `eax`, `ecx` and `edx`, with the context in `edi` and
    the address of the result in `esi`.
-/

namespace Umeq.Jitter.I386

open Bytes Words
open X86_64 (x86Instruction)

def MODRM_MODE_0 : Nat := 0x00
def MODRM_MODE_1 : Nat := 0x40
def MODRM_MODE_2 : Nat := 0x80
def MODRM_MODE_3 : Nat := 0xC0
def MODRM_REG_SHIFT : Nat := 3
def MODRM_RM_SHIFT : Nat := 0

def EAX : Nat := 0
def ECX : Nat := 1
def EDX : Nat := 2
def ESP : Nat := 4
def EBP : Nat := 5
def ESI : Nat := 6
def EDI : Nat := 7

/-- A value stored in the buffer. -/
def byte (n : Nat) : UInt8 := UInt8.ofNat n

/-- The fields of `struct x86Register` that the code is made with; an `index2` that is not
    in use is -1. -/
structure x86Register where
  index : Int
  index2 : Int

def VREG_OFFSET (idx : Int) : UInt8 := byte ((-idx * 4 - 4) % 256).toNat

/-! ## Moves -/

/-- `gen_and_between_physicals`, `gen_xor_between_physicals` and `gen_or_between_physicals`. -/
def gen_between_physicals (opcode : UInt8) (dst op : Nat) : List UInt8 :=
  [opcode, byte (MODRM_MODE_3 ||| dst <<< MODRM_RM_SHIFT ||| op <<< MODRM_REG_SHIFT)]

def gen_and_between_physicals : Nat → Nat → List UInt8 := gen_between_physicals 0x21

def gen_xor_between_physicals : Nat → Nat → List UInt8 := gen_between_physicals 0x31

def gen_or_between_physicals : Nat → Nat → List UInt8 := gen_between_physicals 0x09

def gen_mov_const_in_physical_reg (index value : Nat) : List UInt8 :=
  byte (0xb8 + index) :: le 4 value

def gen_mov_const_in_virtual_reg (index : Int) (value : Nat) : List UInt8 :=
  [0xc7, byte (MODRM_MODE_1 ||| EBP <<< MODRM_RM_SHIFT), VREG_OFFSET index] ++ le 4 value

def gen_mov_from_virtual_to_physical (virtual : Int) (physical : Nat) : List UInt8 :=
  [0x8b, byte (MODRM_MODE_1 ||| EBP <<< MODRM_RM_SHIFT ||| physical <<< MODRM_REG_SHIFT),
    VREG_OFFSET virtual]

def gen_mov_from_physical_to_virtual (physical : Nat) (virtual : Int) : List UInt8 :=
  [0x89, byte (MODRM_MODE_1 ||| EBP <<< MODRM_RM_SHIFT ||| physical <<< MODRM_REG_SHIFT),
    VREG_OFFSET virtual]

def gen_mov_from_virtual_to_virtual_hlp (source target : Int) : List UInt8 :=
  gen_mov_from_virtual_to_physical source EAX ++ gen_mov_from_physical_to_virtual EAX target

def gen_mov_const (dst : x86Register) (value : BitVec 64) : List UInt8 :=
  gen_mov_const_in_virtual_reg dst.index value.toNat ++
  if dst.index2 ≠ -1 then gen_mov_const_in_virtual_reg dst.index2 (value.toNat >>> 32) else []

def gen_push_physical_on_stack (index : Nat) : List UInt8 := [byte (0x50 + index)]

def gen_add_sp (offset : Nat) : List UInt8 :=
  [0x81, byte (MODRM_MODE_3 ||| 0 <<< MODRM_REG_SHIFT ||| ESP)] ++ le 4 offset

/-! ## Memory -/

/-- The size prefix and the opcode of the moves from and to memory. Those of 64 bits are
    two of 32. -/
def gen_size (w : width) (opcode8 opcode : UInt8) : List UInt8 :=
  match w with
  | .w8 => [opcode8]
  | .w16 => [0x66, opcode]
  | .w32 | .w64 => [opcode]

/-- Address is in `eax`, the value in `ecx`. -/
def gen_address : UInt8 :=
  byte (MODRM_MODE_0 ||| EAX <<< MODRM_RM_SHIFT ||| ECX <<< MODRM_REG_SHIFT)

def gen_add_four : List UInt8 := [0x05, 4, 0, 0, 0]

/-- `gen_load_8` to `gen_load_64`. -/
def gen_load (w : width) (dst address : x86Register) : List UInt8 :=
  gen_mov_from_virtual_to_physical address.index EAX ++
  gen_size w 0x8a 0x8b ++ [gen_address] ++
  gen_mov_from_physical_to_virtual ECX dst.index ++
  if w = .w64 then
    gen_add_four ++ [0x8b, gen_address] ++ gen_mov_from_physical_to_virtual ECX dst.index2
  else []

/-- `gen_store_8` to `gen_store_64`. -/
def gen_store (w : width) (src address : x86Register) : List UInt8 :=
  gen_mov_from_virtual_to_physical address.index EAX ++
  gen_mov_from_virtual_to_physical src.index ECX ++
  gen_size w 0x88 0x89 ++ [gen_address] ++
  if w = .w64 then
    gen_mov_from_virtual_to_physical address.index EAX ++ gen_add_four ++
    gen_mov_from_virtual_to_physical src.index2 ECX ++ [0x89, gen_address]
  else []

/-- Address is edi+disp32, the value in `eax`. -/
def gen_context (offset : BitVec 32) : List UInt8 :=
  byte (MODRM_MODE_2 ||| EDI <<< MODRM_RM_SHIFT ||| EAX <<< MODRM_REG_SHIFT) :: le 4 offset.toNat

/-- `gen_read_8` to `gen_read_64`. -/
def gen_read (w : width) (dst : x86Register) (offset : BitVec 32) : List UInt8 :=
  gen_size w 0x8a 0x8b ++ gen_context offset ++ gen_mov_from_physical_to_virtual EAX dst.index ++
  if w = .w64 then
    [0x8b] ++ gen_context (offset + 4) ++ gen_mov_from_physical_to_virtual EAX dst.index2
  else []

/-- `gen_write_8` to `gen_write_64`. -/
def gen_write (w : width) (src : x86Register) (offset : BitVec 32) : List UInt8 :=
  gen_mov_from_virtual_to_physical src.index EAX ++ gen_size w 0x88 0x89 ++ gen_context offset ++
  if w = .w64 then
    gen_mov_from_virtual_to_physical src.index2 EAX ++ [0x89] ++ gen_context (offset + 4)
  else []

/-! ## Casts -/

def gen_upper_unsigned_cast_hlp (dst op : x86Register) (mask : Nat) : List UInt8 :=
  gen_mov_from_virtual_to_physical op.index EAX ++ gen_mov_const_in_physical_reg ECX mask ++
  gen_and_between_physicals EAX ECX ++ gen_mov_from_physical_to_virtual EAX dst.index ++
  if dst.index2 ≠ -1 then gen_mov_const_in_virtual_reg dst.index2 0 else []

/-- A shift of `eax` by `cl`. -/
def gen_shift_eax (subtype : Nat) : List UInt8 :=
  [0xd3, byte (MODRM_MODE_3 ||| subtype <<< MODRM_REG_SHIFT ||| EAX)]

def gen_upper_signed_cast_hlp (dst op : x86Register) (shift_value : Nat) : List UInt8 :=
  gen_mov_from_virtual_to_physical op.index EAX ++
  (if shift_value ≠ 0 then
    gen_mov_const_in_physical_reg ECX shift_value ++ gen_shift_eax 4 ++ gen_shift_eax 7
  else []) ++
  gen_mov_from_physical_to_virtual EAX dst.index ++
  if dst.index2 ≠ -1 then
    gen_mov_const_in_physical_reg ECX (31 - shift_value) ++ gen_shift_eax 7 ++
    gen_mov_from_physical_to_virtual EAX dst.index2
  else []

def gen_cast (type : irCastType) (dst op : x86Register) : List UInt8 :=
  match type with
  | .c8U_TO_16 | .c8U_TO_32 | .c8U_TO_64 => gen_upper_unsigned_cast_hlp dst op 0xff
  | .c16U_TO_32 | .c16U_TO_64 => gen_upper_unsigned_cast_hlp dst op 0xffff
  | .c32U_TO_64 => gen_upper_unsigned_cast_hlp dst op 0xffffffff
  | .c8S_TO_16 | .c8S_TO_32 | .c8S_TO_64 => gen_upper_signed_cast_hlp dst op 24
  | .c16S_TO_32 | .c16S_TO_64 => gen_upper_signed_cast_hlp dst op 16
  | .c32S_TO_64 => gen_upper_signed_cast_hlp dst op 0
  | .c64_TO_8 | .c32_TO_8 | .c16_TO_8 => gen_upper_unsigned_cast_hlp dst op 0xff
  | .c64_TO_16 | .c32_TO_16 => gen_upper_unsigned_cast_hlp dst op 0xffff
  | .c64_TO_32 => gen_mov_from_virtual_to_virtual_hlp op.index dst.index

/-! ## Exits and conditions -/

/-- Compare `eax` with zero. -/
def gen_cmp_eax_zero : List UInt8 := [0x3d, 0, 0, 0, 0]

/-- Jump over `code`. -/
def gen_jump_over (opcode : UInt8) (code : List UInt8) : List UInt8 :=
  [opcode, byte code.length] ++ code

def gen_exit (value : x86Register) (pred : Option x86Register) : List UInt8 :=
  -- return value in address given by ESI
  let sequence := gen_mov_from_virtual_to_physical value.index EAX ++
    [0x89, byte (MODRM_MODE_0 ||| ESI <<< MODRM_RM_SHIFT ||| EAX <<< MODRM_REG_SHIFT)] ++
    gen_mov_from_virtual_to_physical value.index2 EAX ++
    [0x89, byte (MODRM_MODE_1 ||| ESI <<< MODRM_RM_SHIFT ||| EAX <<< MODRM_REG_SHIFT), 4] ++
    gen_mov_const_in_physical_reg EAX 0 ++
    [0x89, byte (MODRM_MODE_1 ||| ESI <<< MODRM_RM_SHIFT ||| EAX <<< MODRM_REG_SHIFT), 8, 0xc3]
  match pred with
  | some pred =>
    gen_mov_from_virtual_to_physical pred.index EAX ++
    (if pred.index2 ≠ -1 then
      gen_mov_from_virtual_to_physical pred.index2 ECX ++ gen_or_between_physicals EAX ECX
    else []) ++
    gen_cmp_eax_zero ++ gen_jump_over 0x74 sequence
  | none => sequence

def gen_ite (dst pred trueOp falseOp : x86Register) : List UInt8 :=
  gen_mov_from_virtual_to_virtual_hlp falseOp.index dst.index ++
  (if dst.index2 ≠ -1 then gen_mov_from_virtual_to_virtual_hlp falseOp.index2 dst.index2 else []) ++
  gen_mov_from_virtual_to_physical pred.index EAX ++
  (if dst.index2 ≠ -1 then
    -- both words are the lower half of the predicate
    gen_mov_from_virtual_to_physical pred.index ECX ++ gen_or_between_physicals EAX ECX
  else []) ++
  gen_cmp_eax_zero ++
  gen_jump_over 0x74 (gen_mov_from_virtual_to_virtual_hlp trueOp.index dst.index ++
    if dst.index2 ≠ -1 then gen_mov_from_virtual_to_virtual_hlp trueOp.index2 dst.index2 else [])

/-- The jump of a comparison. -/
def cmp_opcode (isEq : Bool) : UInt8 := if isEq then 0x74 else 0x75

def gen_cmp32 (isEq : Bool) (dst op1 op2 : x86Register) : List UInt8 :=
  gen_mov_const_in_virtual_reg dst.index 0xffffffff ++
  gen_mov_from_virtual_to_physical op1.index EAX ++ gen_mov_from_virtual_to_physical op2.index ECX ++
  gen_xor_between_physicals EAX ECX ++ gen_cmp_eax_zero ++
  gen_jump_over (cmp_opcode isEq) (gen_mov_const_in_virtual_reg dst.index 0) ++
  gen_mov_from_virtual_to_physical dst.index EAX

def gen_cmp64 (isEq : Bool) (dst op1 op2 : x86Register) : List UInt8 :=
  gen_mov_const_in_virtual_reg dst.index 0xffffffff ++
  gen_mov_const_in_virtual_reg dst.index2 0xffffffff ++
  gen_mov_from_virtual_to_physical op1.index EAX ++ gen_mov_from_virtual_to_physical op2.index ECX ++
  gen_xor_between_physicals EAX ECX ++
  gen_mov_from_virtual_to_physical op1.index2 EDX ++ gen_mov_from_virtual_to_physical op2.index2 ECX ++
  gen_xor_between_physicals ECX EDX ++ gen_or_between_physicals EAX ECX ++ gen_cmp_eax_zero ++
  gen_jump_over (cmp_opcode isEq) (gen_mov_const_in_virtual_reg dst.index 0 ++
    gen_mov_const_in_virtual_reg dst.index2 0)

/-! ## Operations -/

def gen_ror32 (w : width) (op1 op2 : x86Register) : List UInt8 :=
  gen_mov_from_virtual_to_physical op1.index EAX ++ gen_mov_from_virtual_to_physical op2.index ECX ++
  (if w = .w16 then [(0x66 : UInt8)] else []) ++
  [if w = .w8 then 0xd2 else 0xd3, byte (MODRM_MODE_3 ||| 1 <<< MODRM_REG_SHIFT ||| EAX)]

/-- The addresses of `shl64_helper`, `shr64_helper`, `asr64_helper` and `ror64_helper`. -/
structure shift_helpers where
  shl64 : Nat
  shr64 : Nat
  asr64 : Nat
  ror64 : Nat

def gen_shift64 (dst op1 op2 : x86Register) (helper_addr : Nat) : List UInt8 :=
  gen_mov_from_virtual_to_physical op2.index EAX ++ gen_push_physical_on_stack EAX ++
  gen_mov_from_virtual_to_physical op1.index2 EAX ++ gen_push_physical_on_stack EAX ++
  gen_mov_from_virtual_to_physical op1.index EAX ++ gen_push_physical_on_stack EAX ++
  gen_mov_const_in_physical_reg EAX helper_addr ++
  [0xff, byte (MODRM_MODE_3 ||| 2 <<< MODRM_REG_SHIFT ||| EAX)] ++ gen_add_sp 12 ++
  gen_mov_from_physical_to_virtual EAX dst.index ++ gen_mov_from_physical_to_virtual EDX dst.index2

/-- Both operands in `eax` and `ecx`, and the operation on them. -/
def gen_alu (opcode : UInt8) (op1 op2 : Int) : List UInt8 :=
  gen_mov_from_virtual_to_physical op1 EAX ++ gen_mov_from_virtual_to_physical op2 ECX ++
  [opcode, byte (MODRM_MODE_3 ||| ECX <<< MODRM_REG_SHIFT ||| EAX)]

def gen_unop (subtype : Nat) (op1 op2 : x86Register) : List UInt8 :=
  gen_mov_from_virtual_to_physical op1.index EAX ++ gen_mov_from_virtual_to_physical op2.index ECX ++
  gen_shift_eax subtype

/-- `gen_binop` with the mask of the width, of which there is none for 32 bits. -/
def gen_binop (w : width) (type : irBinopType) (dst op1 op2 : x86Register) : List UInt8 :=
  (match type with
    | .ADD => gen_alu 0x01 op1.index op2.index
    | .SUB => gen_alu 0x29 op1.index op2.index
    | .XOR => gen_alu 0x31 op1.index op2.index
    | .AND => gen_alu 0x21 op1.index op2.index
    | .OR => gen_alu 0x09 op1.index op2.index
    | .SHL => gen_unop 4 op1 op2
    | .SHR => gen_unop 5 op1 op2
    | .ASR => gen_unop 7 op1 op2
    | .ROR => gen_ror32 w op1 op2
    | .CMPEQ => gen_cmp32 true dst op1 op2
    | .CMPNE => gen_cmp32 false dst op1 op2) ++
  (match w with
    | .w8 => 0x25 :: le 4 0xff
    | .w16 => 0x25 :: le 4 0xffff
    | _ => []) ++
  gen_mov_from_physical_to_virtual EAX dst.index

/-- An operation on the lower words and one on the upper words. -/
def gen_alu64 (opcode1 opcode2 : UInt8) (dst op1 op2 : x86Register) : List UInt8 :=
  gen_alu opcode1 op1.index op2.index ++ gen_mov_from_physical_to_virtual EAX dst.index ++
  gen_alu opcode2 op1.index2 op2.index2 ++ gen_mov_from_physical_to_virtual EAX dst.index2

def gen_binop64 (helper : shift_helpers) (type : irBinopType) (dst op1 op2 : x86Register) :
    List UInt8 :=
  match type with
  | .ADD => gen_alu64 0x01 0x11 dst op1 op2
  | .SUB => gen_alu64 0x29 0x19 dst op1 op2
  | .XOR => gen_alu64 0x31 0x31 dst op1 op2
  | .AND => gen_alu64 0x21 0x21 dst op1 op2
  | .OR => gen_alu64 0x09 0x09 dst op1 op2
  | .SHL => gen_shift64 dst op1 op2 helper.shl64
  | .SHR => gen_shift64 dst op1 op2 helper.shr64
  | .ASR => gen_shift64 dst op1 op2 helper.asr64
  | .ROR => gen_shift64 dst op1 op2 helper.ror64
  | .CMPEQ => gen_cmp64 true dst op1 op2
  | .CMPNE => gen_cmp64 false dst op1 op2

/-! ## Calls -/

/-- The words of a parameter, pushed. -/
def gen_param (param : Option x86Register) : List UInt8 :=
  match param with
  | some r =>
    (if r.index2 ≠ -1 then
      gen_mov_from_virtual_to_physical r.index2 EAX ++ gen_push_physical_on_stack EAX
    else []) ++
    gen_mov_from_virtual_to_physical r.index EAX ++ gen_push_physical_on_stack EAX
  | none => []

/-- The bytes that a parameter takes on the stack. -/
def param_size (param : Option x86Register) : Nat :=
  match param with
  | some r => if r.index2 ≠ -1 then 8 else 4
  | none => 0

def gen_call (address : x86Register) (param : Fin 4 → Option x86Register)
    (result : Option x86Register) : List UInt8 :=
  gen_param (param 3) ++ gen_param (param 2) ++ gen_param (param 1) ++ gen_param (param 0) ++
  -- push 64 bit context on stack
  gen_mov_const_in_physical_reg EAX 0 ++ gen_push_physical_on_stack EAX ++
  gen_push_physical_on_stack EDI ++
  gen_mov_from_virtual_to_physical address.index EAX ++
  [0xff, byte (MODRM_MODE_3 ||| 2 <<< MODRM_REG_SHIFT ||| EAX)] ++
  gen_add_sp (param_size (param 3) + param_size (param 2) + param_size (param 1) +
    param_size (param 0) + 8) ++
  match result with
  | some r =>
    gen_mov_from_physical_to_virtual EAX r.index ++
    if r.index2 ≠ -1 then gen_mov_from_physical_to_virtual EDX r.index2 else []
  | none => []

/-! ## Code generation -/

/-- The code of an instruction. A marker has none: `generateCode` asserts. -/
def gen (helper : shift_helpers) (reg : Nat → x86Register) : x86Instruction → Option (List UInt8)
  | .mov_const dst value => some (gen_mov_const (reg dst) value)
  | .load w dst address => some (gen_load w (reg dst) (reg address))
  | .store w src address => some (gen_store w (reg src) (reg address))
  | .binop .w64 type dst op1 op2 => some (gen_binop64 helper type (reg dst) (reg op1) (reg op2))
  | .binop w type dst op1 op2 => some (gen_binop w type (reg dst) (reg op1) (reg op2))
  | .cast type dst op => some (gen_cast type (reg dst) (reg op))
  | .exit value pred _ => some (gen_exit (reg value) (pred.map reg))
  | .ite dst pred trueOp falseOp =>
    some (gen_ite (reg dst) (reg pred) (reg trueOp) (reg falseOp))
  | .call address param result =>
    some (gen_call (reg address) (fun i => (param i).map reg) (result.map reg))
  | .read w dst offset => some (gen_read w (reg dst) offset)
  | .write w src offset => some (gen_write w (reg src) offset)
  | .marker _ => none

/-- `generateCode`. -/
def generateCode (helper : shift_helpers) (reg : Nat → x86Register) :
    List x86Instruction → Option (List UInt8)
  | [] => some []
  | insn :: insns => do
    let code ← gen helper reg insn
    let rest ← generateCode helper reg insns
    some (code ++ rest)

/-- The registers after `allocateRegisters`. -/
def registers (i : inter) (a : LinearScan.places (Nat × Bool)) (v : Nat) : x86Register :=
  ⟨a.index (v, false), if i.wide v then a.index (v, true) else -1⟩

/-- `jit`. -/
def jit (helper : shift_helpers) (j : jitter) : Option (List UInt8) := do
  let i := allocateInstructions j
  let a ← allocateRegisters i
  generateCode helper (registers i a) i.insns

/-- Code generation looks at the operands and at the result only. -/
theorem gen_congr {helper : shift_helpers} {f g : Nat → x86Register} {insn : x86Instruction}
    (hreads : ∀ v ∈ insn.reads, f v = g v) (hdst : ∀ d, insn.dst = some d → f d = g d) :
    gen helper f insn = gen helper g insn := by
  cases insn with
  | mov_const dst _ | read _ dst _ => simp only [gen, hdst dst rfl]
  | load _ dst address =>
    simp only [gen, hdst dst rfl, hreads address (by simp [x86Instruction.reads])]
  | store _ src address =>
    simp only [gen, hreads src (by simp [x86Instruction.reads]),
      hreads address (by simp [x86Instruction.reads])]
  | binop w _ dst op1 op2 =>
    cases w with
    | _ =>
      simp only [gen, hdst dst rfl, hreads op1 (by simp [x86Instruction.reads]),
        hreads op2 (by simp [x86Instruction.reads])]
  | ite dst pred trueOp falseOp =>
    simp only [gen, hdst dst rfl, hreads pred (by simp [x86Instruction.reads]),
      hreads trueOp (by simp [x86Instruction.reads]), hreads falseOp (by simp [x86Instruction.reads])]
  | cast _ dst op => simp only [gen, hdst dst rfl, hreads op (by simp [x86Instruction.reads])]
  | exit value pred _ =>
    have hpred : pred.map f = pred.map g :=
      Option.map_congr fun q hq => hreads q (List.mem_cons_of_mem _ (Option.mem_toList.mpr hq))
    simp only [gen, hpred, hreads value (by simp [x86Instruction.reads])]
  | call address param result =>
    have hparam := X86_64.map_params_congr fun v hv => hreads v (List.mem_cons_of_mem _ hv)
    have hresult : result.map f = result.map g := Option.map_congr hdst
    simp only [gen, hparam, hresult, hreads address (by simp [x86Instruction.reads])]
  | write _ src _ => simp only [gen, hreads src (by simp [x86Instruction.reads])]
  | marker _ => rfl

end Umeq.Jitter.I386
