import Umeq.Arm64.Registers
import Umeq.Jitter.X8664.Restart

/-! # Loads and stores of `arm64_disassembler.c`

    The pairs of integer registers and the loads and stores of SIMD registers, with
    the part of `dis_load_store_insn` that selects them.

    The loads of a pair are a sequence of puts into places of the registers, with a
    base that is read before and written after.
-/

namespace Umeq.Arm64

open Bytes Words X86 Places Jitter.X86_64 Jitter.X86_64.Guest

/-! ## Registers in memory accesses -/

def add_load_8 : BitVec 64 → Run arm64_registers (BitVec 64) := add_load .w8
def add_load_16 : BitVec 64 → Run arm64_registers (BitVec 64) := add_load .w16
def add_load_32 : BitVec 64 → Run arm64_registers (BitVec 64) := add_load .w32
def add_load_64 : BitVec 64 → Run arm64_registers (BitVec 64) := add_load .w64
def add_store_8 : BitVec 64 → BitVec 64 → Run arm64_registers Unit := add_store .w8
def add_store_16 : BitVec 64 → BitVec 64 → Run arm64_registers Unit := add_store .w16
def add_store_32 : BitVec 64 → BitVec 64 → Run arm64_registers Unit := add_store .w32
def add_store_64 : BitVec 64 → BitVec 64 → Run arm64_registers Unit := add_store .w64

/-! ## Pairs -/

section translations

variable (insn : BitVec 32)

def dis_load_store_pair : Run arm64_registers Unit := do
  let is_64 := insn.getLsbD 31
  let is_signed := insn.getLsbD 30
  let is_load := insn.getLsbD 22
  let imm7 : BitVec 64 := (insn.extractLsb' 15 7).setWidth 64
  let rt2 := insn.extractLsb' 10 5
  let rn := insn.extractLsb' 5 5
  let rt := insn.extractLsb' 0 5
  let is_wb := insn.getLsbD 23
  let is_not_postindex := insn.getLsbD 24
  -- compute address
  let offset := (imm7 <<< 57).sshiftRight 57
  let offset := offset <<< (2 + if is_64 then 1 else 0)
  let base ← read_x rn SP_REG
  let address1 := if is_not_postindex then add_add_64 base (mk_64 offset) else base
  let address2 := add_add_64 address1 (mk_64 (if is_64 then 8 else 4))
  -- read write reg
  if is_load then
    if is_64 then
      write_x rt (← add_load_64 address1) ZERO_REG
      write_x rt2 (← add_load_64 address2) ZERO_REG
    else if is_signed then
      write_w_sign_extend rt (← add_load_32 address1) ZERO_REG
      write_w_sign_extend rt2 (← add_load_32 address2) ZERO_REG
    else
      write_w rt (← add_load_32 address1) ZERO_REG
      write_w rt2 (← add_load_32 address2) ZERO_REG
  else
    if is_64 then
      add_store_64 (← read_x rt ZERO_REG) address1
      add_store_64 (← read_x rt2 ZERO_REG) address2
    else
      add_store_32 (← read_w rt ZERO_REG) address1
      add_store_32 (← read_w rt2 ZERO_REG) address2
  -- write back
  if is_wb then
    if is_not_postindex then
      write_x rn address1 SP_REG
    else
      write_x rn (add_add_64 address1 (mk_64 offset)) SP_REG

def dis_load_store_pair_simd_vfp : Run arm64_registers Unit := do
  let opc := insn.extractLsb' 30 2
  let is_load := insn.getLsbD 22
  let imm7 : BitVec 64 := (insn.extractLsb' 15 7).setWidth 64
  let rt2 := insn.extractLsb' 10 5
  let rn := insn.extractLsb' 5 5
  let rt := insn.extractLsb' 0 5
  let is_wb := insn.getLsbD 23
  let is_not_postindex := decide (insn.extractLsb' 23 2 ≠ 1#2)
  -- compute address
  let offset := (imm7 <<< 57).sshiftRight 57
  let offset := offset <<< (2 + opc.toNat)
  let base ← read_x rn SP_REG
  let address1 := if is_not_postindex then add_add_64 base (mk_64 offset) else base
  let address2 := add_add_64 address1 (mk_64 (4#64 <<< opc.toNat))
  -- read write reg
  match opc.toNat with
  | 0 =>
    if is_load then
      write_s rt (← add_load_32 address1)
      write_v_msb rt (mk_64 0)
      write_s rt2 (← add_load_32 address2)
      write_v_msb rt2 (mk_64 0)
    else
      add_store_32 (← read_v_lsb rt) address1
      add_store_32 (← read_v_lsb rt2) address2
  | 1 =>
    if is_load then
      write_d rt (← add_load_64 address1)
      write_v_msb rt (mk_64 0)
      write_d rt2 (← add_load_64 address2)
      write_v_msb rt2 (mk_64 0)
    else
      add_store_64 (← read_v_lsb rt) address1
      add_store_64 (← read_v_lsb rt2) address2
  | 2 =>
    if is_load then
      write_v_lsb rt (← add_load_64 address1)
      write_v_msb rt (← add_load_64 (add_add_64 address1 (mk_64 8)))
      write_v_lsb rt2 (← add_load_64 address2)
      write_v_msb rt2 (← add_load_64 (add_add_64 address2 (mk_64 8)))
    else
      add_store_64 (← read_v_lsb rt) address1
      add_store_64 (← read_v_msb rt) (add_add_64 address1 (mk_64 8))
      add_store_64 (← read_v_lsb rt2) address2
      add_store_64 (← read_v_msb rt2) (add_add_64 address2 (mk_64 8))
  | _ => assert_illegal_opcode False
  -- write back
  if is_wb then
    if is_not_postindex then
      write_x rn address1 SP_REG
    else
      write_x rn (add_add_64 address1 (mk_64 offset)) SP_REG

/-! ## Single SIMD registers -/

/-- A narrow store takes the low part of the register that it is given. -/
def dis_load_store_register_simd (is_load : Bool) (size : Nat) (rt : BitVec 5)
    (address : BitVec 64) : Run arm64_registers Unit := do
  if is_load then
    match size with
    | 0 =>
      write_b rt (← add_load_8 address)
      write_v_msb rt (mk_64 0)
    | 1 =>
      write_h rt (← add_load_16 address)
      write_v_msb rt (mk_64 0)
    | 2 =>
      write_s rt (← add_load_32 address)
      write_v_msb rt (mk_64 0)
    | 3 =>
      write_d rt (← add_load_64 address)
      write_v_msb rt (mk_64 0)
    | 4 =>
      write_v_lsb rt (← add_load_64 address)
      write_v_msb rt (← add_load_64 (add_add_64 address (mk_64 8)))
    | _ => assert_illegal_opcode False
  else
    match size with
    | 0 => add_store_8 (← read_v_lsb rt) address
    | 1 => add_store_16 (← read_v_lsb rt) address
    | 2 => add_store_32 (← read_v_lsb rt) address
    | 3 => add_store_64 (← read_v_lsb rt) address
    | 4 =>
      add_store_64 (← read_v_lsb rt) address
      add_store_64 (← read_v_msb rt) (add_add_64 address (mk_64 8))
    | _ => assert_illegal_opcode False

/-- The size of a single register: bit 23 and bits 31 to 30. -/
def simd_size : Nat := (BitVec.ofBool (insn.getLsbD 23) ++ insn.extractLsb' 30 2).toNat

/-- The signed offset of the unscaled and of the indexed forms. -/
def simd_imm9 : BitVec 64 := ((insn.extractLsb' 12 9).setWidth 64 <<< 55).sshiftRight 55

def dis_load_store_register_unsigned_offset_simd : Run arm64_registers Unit := do
  let size := simd_size insn
  let is_load := insn.getLsbD 22
  let imm12 : BitVec 64 := (insn.extractLsb' 10 12).setWidth 64
  let rn := insn.extractLsb' 5 5
  let rt := insn.extractLsb' 0 5
  let address := add_add_64 (← read_x rn SP_REG) (mk_64 (imm12 <<< size))
  dis_load_store_register_simd is_load size rt address

def dis_load_store_register_unscaled_immediate_simd : Run arm64_registers Unit := do
  let size := simd_size insn
  let is_load := insn.getLsbD 22
  let rn := insn.extractLsb' 5 5
  let rt := insn.extractLsb' 0 5
  let address := add_add_64 (← read_x rn SP_REG) (mk_64 (simd_imm9 insn))
  dis_load_store_register_simd is_load size rt address

def dis_load_store_register_immediate_post_indexed_simd : Run arm64_registers Unit := do
  let size := simd_size insn
  let is_load := insn.getLsbD 22
  let rn := insn.extractLsb' 5 5
  let rt := insn.extractLsb' 0 5
  let address ← read_x rn SP_REG
  dis_load_store_register_simd is_load size rt address
  -- write back rn
  write_x rn (add_add_64 address (mk_64 (simd_imm9 insn))) SP_REG

/-- The extended register of a register offset. -/
def offset_not_scale : Run arm64_registers (BitVec 64) := do
  let rm := insn.extractLsb' 16 5
  let option := insn.extractLsb' 13 3
  if option = 3 ∨ option = 7 then read_x rm ZERO_REG
  else if option = 2 then return add_32U_to_64 (← read_w rm ZERO_REG)
  else if option = 6 then return add_32S_to_64 (← read_w rm ZERO_REG)
  else
    assert_illegal_opcode False
    return 0

def dis_load_store_register_register_offset_simd : Run arm64_registers Unit := do
  let size := simd_size insn
  let is_load := insn.getLsbD 22
  let rn := insn.extractLsb' 5 5
  let rt := insn.extractLsb' 0 5
  let S := insn.getLsbD 12
  let offset_not_scale ← offset_not_scale insn
  let offset :=
    if S = true ∧ size ≠ 0 then add_shl_64 offset_not_scale (mk_8 (BitVec.ofNat 8 size))
    else offset_not_scale
  let address := add_add_64 (← read_x rn SP_REG) offset
  dis_load_store_register_simd is_load size rt address

def dis_load_store_register_immediate_pre_indexed_simd : Run arm64_registers Unit := do
  let size := simd_size insn
  let is_load := insn.getLsbD 22
  let rn := insn.extractLsb' 5 5
  let rt := insn.extractLsb' 0 5
  let address := add_add_64 (← read_x rn SP_REG) (mk_64 (simd_imm9 insn))
  dis_load_store_register_simd is_load size rt address
  -- write back rn
  write_x rn address SP_REG

/-- `dis_load_register_literal_simd`, at the address `pc`. -/
def dis_load_register_literal_simd (pc : BitVec 64) : Run arm64_registers Unit := do
  let opc := insn.extractLsb' 30 2
  let imm19 : BitVec 64 := ((insn.extractLsb' 5 19).setWidth 64 <<< 45).sshiftRight 43
  let rt := insn.extractLsb' 0 5
  let address := mk_64 (pc + imm19)
  match opc.toNat with
  | 0 => write_s rt (← add_load_32 address)
  | 1 => write_d rt (← add_load_64 address)
  | 2 =>
    let address2 := mk_64 (pc + imm19 + 8)
    write_v_lsb rt (← add_load_64 address)
    write_v_msb rt (← add_load_64 address2)
  | _ => assert_illegal_opcode False

/-! ## The selection -/

/-- The switch over bits 11 to 10 of `dis_load_store_insn`. -/
def load_store_register_forms (others : BitVec 32 → Run arm64_registers Unit) :
    Run arm64_registers Unit :=
  match (insn.extractLsb' 10 2).toNat with
  | 0 =>
    if insn.getLsbD 26 then dis_load_store_register_unscaled_immediate_simd insn else others insn
  | 1 =>
    if insn.getLsbD 26 then dis_load_store_register_immediate_post_indexed_simd insn
    else others insn
  | 2 =>
    if insn.getLsbD 21 = true ∧ insn.getLsbD 26 = true then
      dis_load_store_register_register_offset_simd insn
    else others insn
  | _ =>
    if insn.getLsbD 26 then dis_load_store_register_immediate_pre_indexed_simd insn
    else others insn

/-- `dis_load_store_insn`, at the address `pc`. The translations that are not modelled here
    are those of `others`. -/
def dis_load_store_insn (others : BitVec 32 → Run arm64_registers Unit) (pc : BitVec 64) :
    Run arm64_registers Unit :=
  match (insn.extractLsb' 28 2).toNat with
  | 0 => others insn
  | 1 => if insn.getLsbD 26 then dis_load_register_literal_simd insn pc else others insn
  | 2 =>
    if insn.getLsbD 26 then dis_load_store_pair_simd_vfp insn
    else if insn.extractLsb' 23 2 = 0 then others insn
    else dis_load_store_pair insn
  | _ =>
    if insn.getLsbD 24 then
      if insn.getLsbD 26 then dis_load_store_register_unsigned_offset_simd insn else others insn
    else load_store_register_forms insn others

end translations

/-! ## Places

    The loads of a pair, as puts into places of the registers. -/

inductive place where
  | x (index : BitVec 5)
  | lsb (index : BitVec 5)
  | msb (index : BitVec 5)
  deriving DecidableEq

def put : place → BitVec 64 → arm64_registers → arm64_registers
  | .x index, value, c => { c with r := Function.update c.r index value }
  | .lsb index, value, c => c.set_lsb index value
  | .msb index, value, c => c.set_msb index value

theorem set_lsb_eq (c : arm64_registers) (i : BitVec 5) (v : BitVec 64) :
    c.set_lsb i v = { c with v := Function.update c.v i { c.v i with lsb := v } } := rfl

theorem set_msb_eq (c : arm64_registers) (i : BitVec 5) (v : BitVec 64) :
    c.set_msb i v = { c with v := Function.update c.v i { c.v i with msb := v } } := rfl

/-- The halves of two registers, or of one. -/
theorem set_lsb_msb (c : arm64_registers) (i j : BitVec 5) (v v' : BitVec 64) :
    (c.set_msb j v').set_lsb i v = (c.set_lsb i v).set_msb j v' := by
  simp only [set_lsb_eq, set_msb_eq]
  by_cases hne : i = j
  · subst hne
    simp
  · rw [Function.update_of_ne hne, Function.update_of_ne (Ne.symm hne), Function.update_comm hne]

theorem lawful_put : Lawful put where
  same := by
    intro l v v' c
    cases l <;> simp [put, arm64_registers.set_lsb, arm64_registers.set_msb, arm64_registers.set_v]
  apart := by
    intro l l' h v v' c
    cases l with
    | x i =>
      cases l' with
      | x j =>
        have hne : i ≠ j := fun heq => h (heq ▸ rfl)
        simp only [put]
        rw [Function.update_comm hne]
      | lsb j | msb j => rfl
    | lsb i =>
      cases l' with
      | x j => rfl
      | lsb j =>
        have hne : i ≠ j := fun heq => h (heq ▸ rfl)
        simp only [put, set_lsb_eq, Function.update_of_ne hne, Function.update_of_ne hne.symm]
        rw [Function.update_comm hne]
      | msb j => exact set_lsb_msb c i j v v'
    | msb i =>
      cases l' with
      | x j => rfl
      | lsb j => exact (set_lsb_msb c j i v' v).symm
      | msb j =>
        have hne : i ≠ j := fun heq => h (heq ▸ rfl)
        simp only [put, set_msb_eq, Function.update_of_ne hne, Function.update_of_ne hne.symm]
        rw [Function.update_comm hne]

/-- The writes of a loaded integer register: none to register 31. -/
def x_writes (rt : BitVec 5) (value : BitVec 64) : List (place × BitVec 64) :=
  if rt = 31 then [] else [(.x rt, value)]

theorem write_x_puts (rt : BitVec 5) (value : BitVec 64) :
    write_x rt value ZERO_REG = add_write_context (puts put (x_writes rt value)) := by
  unfold write_x x_writes
  congr 1
  funext c
  by_cases h : rt = 31
  · rw [if_pos h, arm64_registers.set_x, if_pos ⟨h, rfl⟩, puts_nil]
  · rw [if_neg h, arm64_registers.set_x, if_neg fun h' => h h'.1]
    rfl

theorem write_x_sp_puts (rn : BitVec 5) (value : BitVec 64) :
    write_x rn value SP_REG = add_write_context (puts put [(.x rn, value)]) := by
  unfold write_x
  congr 1
  funext c
  rw [arm64_registers.set_x, if_neg fun h => absurd h.2 (by decide)]
  rfl

theorem add_write_nothing : (add_write_context (puts put []) : Run arm64_registers Unit) = pure () := rfl

/-- The offset of a pair. -/
def pair_offset (insn : BitVec 32) : BitVec 64 :=
  ((((insn.extractLsb' 15 7).setWidth 64 : BitVec 64) <<< 57).sshiftRight 57)
    <<< (2 + if insn.getLsbD 31 then 1 else 0)

/-- The address of the first register of a pair, from the base. -/
def pair_address (insn : BitVec 32) (base : BitVec 64) : BitVec 64 :=
  if insn.getLsbD 24 then base + pair_offset insn else base

/-- The value of an integer register of a pair. -/
def pair_value (insn : BitVec 32) (value : BitVec 64) : BitVec 64 :=
  if insn.getLsbD 31 then value
  else if insn.getLsbD 30 then add_32S_to_64 value else add_32U_to_64 value

def pair_width (insn : BitVec 32) : width := if insn.getLsbD 31 then .w64 else .w32

/-- The loads of a pair of integer registers. -/
def pair_steps (insn : BitVec 32) (base : BitVec 64) : List (load_step place (BitVec 64)) :=
  [⟨pair_width insn, pair_address insn base,
      fun value => x_writes (insn.extractLsb' 0 5) (pair_value insn value)⟩,
    ⟨pair_width insn, pair_address insn base + (if insn.getLsbD 31 then 8 else 4),
      fun value => x_writes (insn.extractLsb' 10 5) (pair_value insn value)⟩]

/-- The base after a pair. -/
def pair_back (insn : BitVec 32) (base : BitVec 64) : List (place × BitVec 64) :=
  if insn.getLsbD 23 then
    [(.x (insn.extractLsb' 5 5),
      if insn.getLsbD 24 then pair_address insn base else base + pair_offset insn)]
  else []

theorem dis_load_pair_eq {insn : BitVec 32} (h : insn.getLsbD 22 = true) :
    dis_load_store_pair insn =
      multi_load put (fun c => c.x (insn.extractLsb' 5 5) SP_REG) (pair_steps insn) (pair_back insn) := by
  unfold dis_load_store_pair multi_load pair_steps pair_back pair_address pair_offset pair_width
    pair_value
  simp only [h, if_true, write_w, write_w_sign_extend, write_x_puts, write_x_sp_puts, read_x, loads,
    add_load_32, add_load_64, mk_64, add_64, bind_assoc, pure_bind]
  cases insn.getLsbD 31 <;> cases insn.getLsbD 30 <;> cases insn.getLsbD 23 <;>
    cases insn.getLsbD 24 <;>
    simp only [Bool.false_eq_true, if_false, if_true, add_write_nothing]

/-- Two writes at once. -/
theorem add_write_two (w w' : place × BitVec 64) :
    (add_write_context (puts put [w, w']) : Run arm64_registers Unit) =
      add_write_context (puts put [w]) >>= fun _ => add_write_context (puts put [w']) := rfl

theorem write_v_lsb_puts (rt : BitVec 5) (value : BitVec 64) :
    write_v_lsb rt value = add_write_context (puts put [(.lsb rt, value)]) := rfl

theorem write_v_msb_puts (rt : BitVec 5) (value : BitVec 64) :
    write_v_msb rt value = add_write_context (puts put [(.msb rt, value)]) := rfl

/-- The offset of a pair of SIMD registers. -/
def simd_pair_offset (insn : BitVec 32) : BitVec 64 :=
  ((((insn.extractLsb' 15 7).setWidth 64 : BitVec 64) <<< 57).sshiftRight 57)
    <<< (2 + (insn.extractLsb' 30 2).toNat)

/-- The address of the first register of such a pair, from the base. -/
def simd_pair_address (insn : BitVec 32) (base : BitVec 64) : BitVec 64 :=
  if insn.extractLsb' 23 2 ≠ 1#2 then base + simd_pair_offset insn else base

/-- A register that is cleared above the element. -/
def scalar_step (w : width) (rt : BitVec 5) (address : BitVec 64) : load_step place (BitVec 64) :=
  ⟨w, address, fun value =>
    [(.lsb rt, if w = .w64 then value else add_32U_to_64 value), (.msb rt, 0)]⟩

/-- The loads of a pair of SIMD registers. -/
def simd_pair_steps (insn : BitVec 32) (base : BitVec 64) : List (load_step place (BitVec 64)) :=
  let rt := insn.extractLsb' 0 5
  let rt2 := insn.extractLsb' 10 5
  let address1 := simd_pair_address insn base
  let address2 := address1 + 4#64 <<< (insn.extractLsb' 30 2).toNat
  match (insn.extractLsb' 30 2).toNat with
  | 0 => [scalar_step .w32 rt address1, scalar_step .w32 rt2 address2]
  | 1 => [scalar_step .w64 rt address1, scalar_step .w64 rt2 address2]
  | _ => [⟨.w64, address1, fun value => [(.lsb rt, value)]⟩,
      ⟨.w64, address1 + 8, fun value => [(.msb rt, value)]⟩,
      ⟨.w64, address2, fun value => [(.lsb rt2, value)]⟩,
      ⟨.w64, address2 + 8, fun value => [(.msb rt2, value)]⟩]

/-- The base after a pair of SIMD registers. -/
def simd_pair_back (insn : BitVec 32) (base : BitVec 64) : List (place × BitVec 64) :=
  if insn.getLsbD 23 then
    [(.x (insn.extractLsb' 5 5),
      if insn.extractLsb' 23 2 ≠ 1#2 then simd_pair_address insn base else base + simd_pair_offset insn)]
  else []

theorem dis_load_pair_simd_eq {insn : BitVec 32} (h : insn.getLsbD 22 = true)
    (hopc : (insn.extractLsb' 30 2).toNat < 3) :
    dis_load_store_pair_simd_vfp insn =
      multi_load put (fun c => c.x (insn.extractLsb' 5 5) SP_REG) (simd_pair_steps insn)
        (simd_pair_back insn) := by
  unfold dis_load_store_pair_simd_vfp multi_load simd_pair_steps simd_pair_back simd_pair_address
    simd_pair_offset
  obtain hk | hk | hk : (insn.extractLsb' 30 2).toNat = 0 ∨ (insn.extractLsb' 30 2).toNat = 1 ∨
      (insn.extractLsb' 30 2).toNat = 2 := by omega
  all_goals
    simp only [hk, h, if_true, write_s, write_d, write_v_lsb_puts, write_v_msb_puts, write_x_sp_puts,
      read_x, loads, scalar_step, add_load_32, add_load_64, mk_64, add_64, add_write_two, bind_assoc,
      pure_bind, decide_eq_true_eq]
    cases insn.getLsbD 23 <;> by_cases hindex : insn.extractLsb' 23 2 = 1#2 <;>
      simp [hindex, add_write_nothing]

end Umeq.Arm64
