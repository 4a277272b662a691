import Umeq.Arm64.LoadStore
import Umeq.Lib.Shifts

/-! # Scalar loads of SIMD registers

    A load of a B, H, S or D register clears the rest of the 128-bit register. Every
    translation routine does so by itself, with a write of the upper half; the routine of
    the literals has none.
-/

namespace Umeq.Arm64

open Bytes Words X86 Shifts Places Jitter.X86_64 Jitter.X86_64.Guest

/-! ## The architecture -/

/-- A place in memory that is loaded into a SIMD register. -/
structure simd_element where
  rt : BitVec 5
  width : Words.width
  address : BitVec 64

/-- The encodings that load B, H, S or D registers. -/
inductive scalar_load where
  | literal | pair | unsigned_offset | unscaled_immediate | post_indexed | register_offset | pre_indexed
  deriving DecidableEq

/-- The bits of an encoding: the fixed ones from 29 on, then the size and the direction. -/
def scalar_load.Encodes (insn : BitVec 32) : scalar_load → Prop
  | .literal => insn.extractLsb' 24 6 = 0b011100#6 ∧ insn.getLsbD 31 = false
  | .pair => insn.extractLsb' 25 5 = 0b10110#5 ∧ insn.getLsbD 31 = false ∧ insn.getLsbD 22 = true
  | .unsigned_offset => insn.extractLsb' 22 8 = 0b11110101#8
  | .unscaled_immediate => insn.extractLsb' 21 9 = 0b111100010#9 ∧ insn.extractLsb' 10 2 = 0
  | .post_indexed => insn.extractLsb' 21 9 = 0b111100010#9 ∧ insn.extractLsb' 10 2 = 1
  | .pre_indexed => insn.extractLsb' 21 9 = 0b111100010#9 ∧ insn.extractLsb' 10 2 = 3
  | .register_offset =>
    insn.extractLsb' 21 9 = 0b111100011#9 ∧ insn.extractLsb' 10 2 = 2 ∧ insn.getLsbD 14 = true

/-- The width of the elements of the literal and of the pairs. -/
def scalar_load.opc_width (insn : BitVec 32) : width := if insn.getLsbD 30 then .w64 else .w32

/-- The width of a size. -/
def size_to_width : Nat → width
  | 0 => .w8
  | 1 => .w16
  | 2 => .w32
  | _ => .w64

/-- The width of the element of the other forms. -/
def scalar_load.size_width (insn : BitVec 32) : width := size_to_width (insn.extractLsb' 30 2).toNat

/-- The extended register of the register offset. -/
def scalar_load.extended (insn : BitVec 32) (m : BitVec 64) : BitVec 64 :=
  match insn.getLsbD 15, insn.getLsbD 13 with
  | false, false => (m.setWidth 32).setWidth 64
  | true, false => (m.setWidth 32).signExtend 64
  | _, true => m

/-- The elements of a load, in their order. -/
def scalar_load.elements (pc : BitVec 64) (insn : BitVec 32) (c : arm64_registers) :
    scalar_load → List simd_element
  | .literal =>
    [⟨insn.extractLsb' 0 5, opc_width insn, pc + (insn.extractLsb' 5 19).signExtend 64 * 4⟩]
  | .pair =>
    let bytes : BitVec 64 := BitVec.ofNat 64 (opc_width insn).bytes
    let base := c.x (insn.extractLsb' 5 5) SP_REG
    let address :=
      if insn.extractLsb' 23 2 = 1#2 then base
      else base + (insn.extractLsb' 15 7).signExtend 64 * bytes
    [⟨insn.extractLsb' 0 5, opc_width insn, address⟩,
      ⟨insn.extractLsb' 10 5, opc_width insn, address + bytes⟩]
  | .unsigned_offset =>
    [⟨insn.extractLsb' 0 5, size_width insn, c.x (insn.extractLsb' 5 5) SP_REG +
      (insn.extractLsb' 10 12).setWidth 64 * BitVec.ofNat 64 (size_width insn).bytes⟩]
  | .unscaled_immediate | .pre_indexed =>
    [⟨insn.extractLsb' 0 5, size_width insn,
      c.x (insn.extractLsb' 5 5) SP_REG + (insn.extractLsb' 12 9).signExtend 64⟩]
  | .post_indexed => [⟨insn.extractLsb' 0 5, size_width insn, c.x (insn.extractLsb' 5 5) SP_REG⟩]
  | .register_offset =>
    let offset := extended insn (c.x (insn.extractLsb' 16 5) ZERO_REG)
    [⟨insn.extractLsb' 0 5, size_width insn, c.x (insn.extractLsb' 5 5) SP_REG +
      offset * BitVec.ofNat 64 (if insn.getLsbD 12 then (size_width insn).bytes else 1)⟩]

/-- The SIMD registers after a load: each element is zero-extended to the whole register. -/
def simd_loaded (m : Mem) (elements : List simd_element) (v : BitVec 5 → BitVec 128) :
    BitVec 5 → BitVec 128 :=
  elements.foldl (fun v x =>
    Function.update v x.rt (BitVec.ofNat 128 (m.load x.address.toNat x.width.bytes))) v

/-- Every element of the load is where the guest may read. -/
def Accessible (e : host_env) (elements : List simd_element) : Prop :=
  ∀ x ∈ elements, e.accessible x.address.toNat x.width = true

/-- The load ends, and the SIMD registers are those of the elements and the others as before. -/
def ClearsRest (p : Run arm64_registers Unit) (elements : List simd_element) (e : host_env)
    (s : machine arm64_registers) : Prop :=
  ∃ s', p e s = .done () s' ∧
    (fun i => (s'.context.v i).v128) = simd_loaded s.mem elements fun i => (s.context.v i).v128

/-! ## One element -/

section element

variable {e : host_env} {s : machine arm64_registers} {address : BitVec 64}

/-- The low part of a register that something was loaded into. -/
theorem low_loaded (w : width) (left : BitVec 64) (m : Mem) (a : Nat) :
    low w (merge w left (BitVec.ofNat 64 (m.load a w.bytes))) = BitVec.ofNat 64 (m.load a w.bytes) := by
  have hlt := m.load_lt a w.bytes
  rw [low_merge]
  apply BitVec.eq_of_toNat_eq
  simp only [low, BitVec.toNat_setWidth, BitVec.toNat_ofNat]
  cases w <;> simp only [width.bits, width.bytes] at hlt ⊢ <;> omega

/-- The two halves of a register. -/
theorem set_halves (c : arm64_registers) (rt : BitVec 5) (x y : BitVec 64) :
    (c.set_lsb rt x).set_msb rt y = c.set_v rt ⟨x, y⟩ := by
  simp [arm64_registers.set_lsb, arm64_registers.set_msb, arm64_registers.set_v]

theorem v128_zero (m : Mem) (a : Nat) (w : width) :
    simd_register.v128 ⟨BitVec.ofNat 64 (m.load a w.bytes), 0⟩ =
      BitVec.ofNat 128 (m.load a w.bytes) := by
  have hlt := m.load_lt a w.bytes
  have h64 : m.load a w.bytes < 2 ^ 64 := by
    cases w <;> simp only [width.bytes] at hlt ⊢ <;> omega
  apply BitVec.eq_of_toNat_eq
  simp only [simd_register.v128, BitVec.toNat_append, BitVec.toNat_ofNat]
  rw [Nat.mod_eq_of_lt h64, Nat.mod_eq_of_lt (by omega)]
  simp

/-- One element that is loaded into a cleared register. -/
theorem v128_update (v : BitVec 5 → simd_register) (m : Mem) (x : simd_element) :
    (fun i => (Function.update v x.rt
        ⟨BitVec.ofNat 64 (m.load x.address.toNat x.width.bytes), 0⟩ i).v128)
      = simd_loaded m [x] fun i => (v i).v128 := by
  funext i
  simp only [simd_loaded, List.foldl_cons, List.foldl_nil]
  by_cases h : i = x.rt
  · subst h
    rw [Function.update_self, Function.update_self, v128_zero]
  · rw [Function.update_of_ne h, Function.update_of_ne h]

/-- A scalar load of a single register. -/
theorem register_simd_done {size : Nat} (hsize : size < 4) (rt : BitVec 5)
    (h : e.accessible address.toNat (size_to_width size) = true) :
    dis_load_store_register_simd true size rt address e s =
      .done () { s with
        context := s.context.set_v rt
          ⟨BitVec.ofNat 64 (s.mem.load address.toNat (size_to_width size).bytes), 0⟩ } := by
  have hlow := low_loaded (size_to_width size) (e.left address.toNat (size_to_width size)) s.mem
    address.toNat
  rw [← set_halves, ← hlow]
  unfold dis_load_store_register_simd
  obtain rfl | rfl | rfl | rfl : size = 0 ∨ size = 1 ∨ size = 2 ∨ size = 3 := by omega
  all_goals
    simp only [size_to_width] at h
    simp only [if_true, run_bind, add_load_8, add_load_16, add_load_32, add_load_64, add_load, h]
    rfl

end element

/-! ## The fields of an encoding -/

section fields

variable {insn : BitVec 32}

/-- A bit of a field that is fixed. -/
theorem field_bit {a n : Nat} {v : BitVec n} (h : insn.extractLsb' a n = v) {i : Nat} (hi : i < n) :
    insn.getLsbD (a + i) = v.getLsbD i := by
  rw [← h, BitVec.getLsbD_extractLsb']
  simp [hi]

/-- A field of two bits. -/
theorem two_bit_field (insn : BitVec 32) (a : Nat) : (insn.extractLsb' a 2).toNat =
    (if insn.getLsbD (a + 1) then 2 else 0) + if insn.getLsbD a then 1 else 0 := by
  have heq : insn.extractLsb' a 2
      = BitVec.ofBool (insn.getLsbD (a + 1)) ++ BitVec.ofBool (insn.getLsbD a) := by
    apply BitVec.eq_of_getLsbD_eq
    intro i hi
    obtain rfl | rfl : i = 0 ∨ i = 1 := by omega
    · rw [BitVec.getLsbD_extractLsb', BitVec.getLsbD_append]
      simp
    · rw [BitVec.getLsbD_extractLsb', BitVec.getLsbD_append]
      simp
  rw [heq]
  cases insn.getLsbD (a + 1) <;> cases insn.getLsbD a <;> rfl

theorem simd_size_scalar (h : insn.getLsbD 23 = false) :
    simd_size insn = (insn.extractLsb' 30 2).toNat := by
  rw [simd_size, h, BitVec.toNat_append]
  simp

theorem bytes_size_to_width {size : Nat} (h : size < 4) : (size_to_width size).bytes = 2 ^ size := by
  obtain rfl | rfl | rfl | rfl : size = 0 ∨ size = 1 ∨ size = 2 ∨ size = 3 := by omega
  all_goals rfl

theorem simd_imm9_eq (insn : BitVec 32) : simd_imm9 insn = (insn.extractLsb' 12 9).signExtend 64 := by
  have h := sign_extend_shifts (w := 64) (n := 55) (u := 0) (insn.extractLsb' 12 9) (by decide) rfl
    (by decide)
  simpa [simd_imm9] using h

end fields

/-! ## The forms -/

section forms

variable {insn : BitVec 32} {e : host_env} {s : machine arm64_registers}

/-- A single register whose address is known, and a write back that may follow. -/
theorem clears_single {p : Run arm64_registers Unit} {size : Nat} {rt : BitVec 5}
    {address : BitVec 64} (hsize : size < 4)
    (hacc : Accessible e [⟨rt, size_to_width size, address⟩])
    (hp : p e s = dis_load_store_register_simd true size rt address e s ∨
      ∃ rn value, p e s = (dis_load_store_register_simd true size rt address >>= fun _ =>
        write_x rn value SP_REG) e s) :
    ClearsRest p [⟨rt, size_to_width size, address⟩] e s := by
  have hdone := register_simd_done (s := s) hsize rt (hacc _ List.mem_cons_self)
  rcases hp with hp | ⟨rn, value, hp⟩
  · exact ⟨_, hp.trans hdone, v128_update s.context.v s.mem ⟨rt, size_to_width size, address⟩⟩
  · rw [run_bind, hdone] at hp
    refine ⟨_, hp, ?_⟩
    rw [← v128_update s.context.v s.mem ⟨rt, size_to_width size, address⟩]
    simp [arm64_registers.set_x, arm64_registers.set_v, SP_REG]

/-- The selection of the forms with an unsigned offset. -/
theorem select_unsigned_offset (h : insn.extractLsb' 22 8 = 0b11110101#8) :
    insn.getLsbD 22 = true ∧ insn.getLsbD 23 = false ∧ ∀ others pc,
      dis_load_store_insn insn others pc = dis_load_store_register_unsigned_offset_simd insn := by
  have h22 : insn.getLsbD 22 = true := field_bit h (i := 0) (by decide)
  have h23 : insn.getLsbD 23 = false := field_bit h (i := 1) (by decide)
  have h24 : insn.getLsbD 24 = true := field_bit h (i := 2) (by decide)
  have h26 : insn.getLsbD 26 = true := field_bit h (i := 4) (by decide)
  have h28 : insn.getLsbD 28 = true := field_bit h (i := 6) (by decide)
  have h29 : insn.getLsbD 29 = true := field_bit h (i := 7) (by decide)
  refine ⟨h22, h23, ?_⟩
  intro others pc
  have hop : (insn.extractLsb' 28 2).toNat = 3 := by
    rw [two_bit_field, h28, h29]
    rfl
  rw [dis_load_store_insn, hop]
  simp only [h24, h26, if_true]

/-- The selection among the other forms of a single register. -/
theorem select_register {b : Bool} (h : insn.extractLsb' 21 9 = 0b11110001#8 ++ BitVec.ofBool b) :
    insn.getLsbD 21 = b ∧ insn.getLsbD 22 = true ∧ insn.getLsbD 23 = false ∧
      insn.getLsbD 26 = true ∧ ∀ others pc,
        dis_load_store_insn insn others pc = load_store_register_forms insn others := by
  have hbit : ∀ i (hi : i < 9), insn.getLsbD (21 + i)
      = (0b11110001#8 ++ BitVec.ofBool b).getLsbD i := fun i hi => field_bit h hi
  have hlow : ∀ i < 8, insn.getLsbD (22 + i) = (0b11110001#8).getLsbD i := by
    intro i hi
    have hi' := hbit (1 + i) (by omega)
    rw [BitVec.getLsbD_append, if_neg (by omega), Nat.add_sub_cancel_left, ← Nat.add_assoc] at hi'
    exact hi'
  have h21 : insn.getLsbD 21 = b := by
    rw [hbit 0 (by decide)]
    cases b <;> rfl
  have h24 : insn.getLsbD 24 = false := hlow 2 (by decide)
  have h28 : insn.getLsbD 28 = true := hlow 6 (by decide)
  have h29 : insn.getLsbD 29 = true := hlow 7 (by decide)
  refine ⟨h21, hlow 0 (by decide), hlow 1 (by decide), hlow 4 (by decide), ?_⟩
  intro others pc
  have hop : (insn.extractLsb' 28 2).toNat = 3 := by
    rw [two_bit_field, h28, h29]
    rfl
  rw [dis_load_store_insn, hop]
  simp only [h24, Bool.false_eq_true, if_false]

theorem select_pair (h : insn.extractLsb' 25 5 = 0b10110#5) (others : BitVec 32 → Run arm64_registers Unit)
    (pc : BitVec 64) : dis_load_store_insn insn others pc = dis_load_store_pair_simd_vfp insn := by
  have h26 : insn.getLsbD 26 = true := field_bit h (i := 1) (by decide)
  have h28 : insn.getLsbD 28 = false := field_bit h (i := 3) (by decide)
  have h29 : insn.getLsbD 29 = true := field_bit h (i := 4) (by decide)
  have hop : (insn.extractLsb' 28 2).toNat = 2 := by
    rw [two_bit_field, h28, h29]
    rfl
  rw [dis_load_store_insn, hop]
  simp only [h26, if_true]

theorem select_literal (h : insn.extractLsb' 24 6 = 0b011100#6)
    (others : BitVec 32 → Run arm64_registers Unit) (pc : BitVec 64) :
    dis_load_store_insn insn others pc = dis_load_register_literal_simd insn pc := by
  have h26 : insn.getLsbD 26 = true := field_bit h (i := 2) (by decide)
  have h28 : insn.getLsbD 28 = true := field_bit h (i := 4) (by decide)
  have h29 : insn.getLsbD 29 = false := field_bit h (i := 5) (by decide)
  have hop : (insn.extractLsb' 28 2).toNat = 1 := by
    rw [two_bit_field, h28, h29]
    rfl
  rw [dis_load_store_insn, hop]
  simp only [h26, if_true]

section single

variable (h22 : insn.getLsbD 22 = true) (h23 : insn.getLsbD 23 = false)
include h22 h23

theorem unsigned_offset_clears {pc : BitVec 64}
    (hacc : Accessible e (scalar_load.elements pc insn s.context .unsigned_offset)) :
    ClearsRest (dis_load_store_register_unsigned_offset_simd insn)
      (scalar_load.elements pc insn s.context .unsigned_offset) e s := by
  have hsize := (insn.extractLsb' 30 2).isLt
  simp only [scalar_load.elements, scalar_load.size_width, bytes_size_to_width hsize,
    ← shiftLeft_eq_mul] at hacc ⊢
  apply clears_single hsize hacc
  left
  unfold dis_load_store_register_unsigned_offset_simd
  simp only [run_bind, read_x, run_read, h22, simd_size_scalar h23, add_64, mk_64]

theorem unscaled_immediate_clears {pc : BitVec 64}
    (hacc : Accessible e (scalar_load.elements pc insn s.context .unscaled_immediate)) :
    ClearsRest (dis_load_store_register_unscaled_immediate_simd insn)
      (scalar_load.elements pc insn s.context .unscaled_immediate) e s := by
  have hsize := (insn.extractLsb' 30 2).isLt
  apply clears_single hsize hacc
  left
  unfold dis_load_store_register_unscaled_immediate_simd
  simp only [run_bind, read_x, run_read, h22, simd_size_scalar h23, add_64, mk_64, simd_imm9_eq]

theorem pre_indexed_clears {pc : BitVec 64}
    (hacc : Accessible e (scalar_load.elements pc insn s.context .pre_indexed)) :
    ClearsRest (dis_load_store_register_immediate_pre_indexed_simd insn)
      (scalar_load.elements pc insn s.context .pre_indexed) e s := by
  have hsize := (insn.extractLsb' 30 2).isLt
  apply clears_single hsize hacc
  right
  refine ⟨insn.extractLsb' 5 5,
    s.context.x (insn.extractLsb' 5 5) SP_REG + (insn.extractLsb' 12 9).signExtend 64, ?_⟩
  unfold dis_load_store_register_immediate_pre_indexed_simd
  simp only [run_bind, read_x, run_read, h22, simd_size_scalar h23, add_64, mk_64, simd_imm9_eq]

theorem post_indexed_clears {pc : BitVec 64}
    (hacc : Accessible e (scalar_load.elements pc insn s.context .post_indexed)) :
    ClearsRest (dis_load_store_register_immediate_post_indexed_simd insn)
      (scalar_load.elements pc insn s.context .post_indexed) e s := by
  have hsize := (insn.extractLsb' 30 2).isLt
  apply clears_single hsize hacc
  right
  refine ⟨insn.extractLsb' 5 5,
    s.context.x (insn.extractLsb' 5 5) SP_REG + (insn.extractLsb' 12 9).signExtend 64, ?_⟩
  unfold dis_load_store_register_immediate_post_indexed_simd
  simp only [run_bind, read_x, run_read, h22, simd_size_scalar h23, add_64, mk_64, simd_imm9_eq]

omit h22 h23 in
/-- The offset of the register form, before it is scaled. -/
theorem offset_not_scale_eq (h14 : insn.getLsbD 14 = true) :
    offset_not_scale insn e s =
      .done (scalar_load.extended insn (s.context.x (insn.extractLsb' 16 5) ZERO_REG)) s := by
  have hoption : insn.extractLsb' 13 3 = BitVec.ofBool (insn.getLsbD 15) ++ 1#1 ++
      BitVec.ofBool (insn.getLsbD 13) := by
    apply BitVec.eq_of_getLsbD_eq
    intro i hi
    obtain rfl | rfl | rfl : i = 0 ∨ i = 1 ∨ i = 2 := by omega
    all_goals
      rw [BitVec.getLsbD_extractLsb', BitVec.getLsbD_append, BitVec.getLsbD_append]
      simp [h14]
  unfold offset_not_scale
  rw [hoption]
  unfold scalar_load.extended
  cases insn.getLsbD 15 <;> cases insn.getLsbD 13
  · simp [read_w, from_32U]
  · rfl
  · simp [read_w, from_32S]
  · rfl

theorem register_offset_clears (h14 : insn.getLsbD 14 = true) {pc : BitVec 64}
    (hacc : Accessible e (scalar_load.elements pc insn s.context .register_offset)) :
    ClearsRest (dis_load_store_register_register_offset_simd insn)
      (scalar_load.elements pc insn s.context .register_offset) e s := by
  have hsize := (insn.extractLsb' 30 2).isLt
  apply clears_single hsize hacc
  left
  unfold dis_load_store_register_register_offset_simd
  simp only [run_bind, offset_not_scale_eq h14, read_x, run_read, h22, simd_size_scalar h23, add_64,
    scalar_load.size_width, bytes_size_to_width hsize]
  congr 2
  generalize scalar_load.extended insn _ = offset
  by_cases hS : insn.getLsbD 12 = true ∧ (insn.extractLsb' 30 2).toNat ≠ 0
  · have hshift : (mk_8 (BitVec.ofNat 8 (insn.extractLsb' 30 2).toNat)).toNat % 64
        = (insn.extractLsb' 30 2).toNat := by
      rw [toNat_mk_8, BitVec.toNat_ofNat]
      omega
    rw [if_pos hS, if_pos hS.1, shl_64, hshift, shiftLeft_eq_mul]
  · have hone : (if insn.getLsbD 12 = true then 2 ^ (insn.extractLsb' 30 2).toNat else 1) = 1 := by
      split_ifs with h12
      · rw [show (insn.extractLsb' 30 2).toNat = 0 from by_contra fun h0 => hS ⟨h12, h0⟩, pow_zero]
      · rfl
    rw [if_neg hS, hone]
    simp

end single

/-- The field `opc` of an S or D register. -/
theorem opc_scalar (h31 : insn.getLsbD 31 = false) :
    (insn.extractLsb' 30 2).toNat = if insn.getLsbD 30 then 1 else 0 := by
  rw [two_bit_field, h31, if_neg (by decide), Nat.zero_add]

theorem offset_scaled (insn : BitVec 32) (k : Nat) :
    (((insn.extractLsb' 15 7).setWidth 64 <<< 57).sshiftRight 57) <<< k =
      (insn.extractLsb' 15 7).signExtend 64 * BitVec.ofNat 64 (2 ^ k) := by
  have h := sign_extend_shifts (w := 64) (n := 57) (u := 0) (insn.extractLsb' 15 7) (by decide) rfl
    (by decide)
  rw [BitVec.shiftLeft_zero] at h
  rw [← shiftLeft_eq_mul, ← h]

/-- A step of a scalar pair. -/
theorem written_scalar {w : width} (hw : w = .w32 ∨ w = .w64) (rt : BitVec 5) (address : BitVec 64)
    (m : Mem) (c : arm64_registers) :
    puts put (written e m [scalar_step w rt address]) c =
      c.set_v rt ⟨BitVec.ofNat 64 (m.load address.toNat w.bytes), 0⟩ := by
  have hlow := low_loaded w (e.left address.toNat w) m address.toNat
  rw [← set_halves, ← hlow]
  rcases hw with rfl | rfl
  · rfl
  · simp [scalar_step, written, load_step.value, put]

theorem pair_clears (h31 : insn.getLsbD 31 = false) (h22 : insn.getLsbD 22 = true) {pc : BitVec 64}
    (hacc : Accessible e (scalar_load.elements pc insn s.context .pair)) :
    ClearsRest (dis_load_store_pair_simd_vfp insn) (scalar_load.elements pc insn s.context .pair) e s := by
  have hopc := opc_scalar h31
  have hw : scalar_load.opc_width insn = .w32 ∨ scalar_load.opc_width insn = .w64 := by
    unfold scalar_load.opc_width
    split <;> simp
  have hbytes : (4#64 : BitVec 64) <<< (insn.extractLsb' 30 2).toNat
      = BitVec.ofNat 64 (scalar_load.opc_width insn).bytes := by
    rw [hopc, scalar_load.opc_width]
    split <;> rfl
  have hscale : 2 ^ (2 + (insn.extractLsb' 30 2).toNat) = (scalar_load.opc_width insn).bytes := by
    rw [hopc, scalar_load.opc_width]
    split <;> rfl
  -- the address of the code is that of the architecture
  have haddress : simd_pair_address insn (s.context.x (insn.extractLsb' 5 5) SP_REG) =
      if insn.extractLsb' 23 2 = 1#2 then s.context.x (insn.extractLsb' 5 5) SP_REG
      else s.context.x (insn.extractLsb' 5 5) SP_REG + (insn.extractLsb' 15 7).signExtend 64 *
        BitVec.ofNat 64 (scalar_load.opc_width insn).bytes := by
    unfold simd_pair_address simd_pair_offset
    rw [offset_scaled, hscale, ite_not]
  have hsteps : simd_pair_steps insn (s.context.x (insn.extractLsb' 5 5) SP_REG) =
      (scalar_load.elements pc insn s.context .pair).map fun x => scalar_step x.width x.rt x.address := by
    unfold simd_pair_steps scalar_load.elements
    simp only [haddress, hbytes, List.map_cons, List.map_nil]
    generalize (if insn.extractLsb' 23 2 = 1#2 then _ else _ : BitVec 64) = address
    rw [hopc]
    unfold scalar_load.opc_width
    cases insn.getLsbD 30 <;> rfl
  rw [dis_load_pair_simd_eq h22 (by rw [hopc]; split <;> decide)]
  refine ⟨_, multi_load_done e s ?_, ?_⟩
  · intro x hx
    rw [hsteps] at hx
    obtain ⟨y, hy, rfl⟩ := List.mem_map.mp hx
    exact hacc y hy
  · have hback : ∀ c : arm64_registers,
        (puts put (simd_pair_back insn (s.context.x (insn.extractLsb' 5 5) SP_REG)) c).v = c.v := by
      intro c
      unfold simd_pair_back
      split <;> rfl
    have hpair : ∀ x y : simd_element, written e s.mem
        ([x, y].map fun x => scalar_step x.width x.rt x.address) =
          written e s.mem [scalar_step x.width x.rt x.address] ++
            written e s.mem [scalar_step y.width y.rt y.address] := fun _ _ => rfl
    dsimp only
    rw [hsteps, puts_append, hback]
    unfold scalar_load.elements
    rw [hpair, puts_append, written_scalar hw, written_scalar hw]
    refine (v128_update _ s.mem ⟨insn.extractLsb' 10 5, scalar_load.opc_width insn, _⟩).trans ?_
    exact congrArg (simd_loaded s.mem _)
      (v128_update s.context.v s.mem ⟨insn.extractLsb' 0 5, scalar_load.opc_width insn, _⟩)

theorem literal_done (h31 : insn.getLsbD 31 = false) {pc address : BitVec 64}
    (haddress : address = pc + (insn.extractLsb' 5 19).signExtend 64 * 4)
    (hacc : e.accessible address.toNat (scalar_load.opc_width insn) = true) :
    dis_load_register_literal_simd insn pc e s =
      .done () { s with
        context := s.context.set_lsb (insn.extractLsb' 0 5)
          (BitVec.ofNat 64 (s.mem.load address.toNat (scalar_load.opc_width insn).bytes)) } := by
  have himm : ((insn.extractLsb' 5 19).setWidth 64 <<< 45).sshiftRight 43
      = (insn.extractLsb' 5 19).signExtend 64 * 4 :=
    (sign_extend_shifts (w := 64) (n := 45) (u := 2) (insn.extractLsb' 5 19) (by decide) rfl
      (by decide)).trans (shiftLeft_eq_mul _ 2)
  have hlow := low_loaded (scalar_load.opc_width insn)
    (e.left address.toNat (scalar_load.opc_width insn)) s.mem address.toNat
  rw [← hlow]
  unfold dis_load_register_literal_simd
  simp only [himm, ← haddress, opc_scalar h31, mk_64]
  unfold scalar_load.opc_width at hacc ⊢
  cases hopc : insn.getLsbD 30
  · rw [hopc, if_neg (by decide)] at hacc
    simp only [Bool.false_eq_true, if_false, run_bind, add_load_32, add_load, hacc, if_true]
    rfl
  · rw [hopc, if_pos rfl] at hacc
    simp only [run_bind, add_load_64, add_load, hacc, if_true, low_w64, merge_w64]
    rfl

theorem v128_inj {x y z : BitVec 64} :
    simd_register.v128 ⟨x, y⟩ = simd_register.v128 ⟨x, z⟩ ↔ y = z := by
  constructor
  · intro h
    have hhigh := congrArg (BitVec.extractLsb' 64 64) h
    simpa only [simd_register.v128, BitVec.extractLsb'_append_eq_left] using hhigh
  · rintro rfl
    rfl

/-- The literal leaves the upper half of the register. -/
theorem literal_clears_iff (h31 : insn.getLsbD 31 = false) {pc : BitVec 64}
    (hacc : Accessible e (scalar_load.elements pc insn s.context .literal)) :
    ClearsRest (dis_load_register_literal_simd insn pc)
        (scalar_load.elements pc insn s.context .literal) e s ↔
      (s.context.v (insn.extractLsb' 0 5)).msb = 0 := by
  have hdone := literal_done (s := s) h31 rfl (hacc _ List.mem_cons_self)
  constructor
  · rintro ⟨s', hs', hv⟩
    rw [hdone] at hs'
    cases hs'
    have hrt := congrFun hv (insn.extractLsb' 0 5)
    simp only [scalar_load.elements, simd_loaded, List.foldl_cons, List.foldl_nil,
      Function.update_self, arm64_registers.set_lsb, arm64_registers.set_v] at hrt
    exact v128_inj.mp (hrt.trans (v128_zero _ _ _).symm)
  · intro hmsb
    refine ⟨_, hdone, ?_⟩
    simp only [arm64_registers.set_lsb, hmsb]
    exact v128_update s.context.v s.mem ⟨insn.extractLsb' 0 5, scalar_load.opc_width insn, _⟩

/-- Every scalar load of a SIMD register leaves the element in the whole register and the other
    registers as they were, except that the loads of a literal leave the upper half. -/
theorem scalar_loads_clear (form : scalar_load) (others : BitVec 32 → Run arm64_registers Unit)
    (pc : BitVec 64) (insn : BitVec 32) (h : form.Encodes insn) (e : host_env)
    (s : machine arm64_registers) (hacc : Accessible e (form.elements pc insn s.context)) :
    ClearsRest (dis_load_store_insn insn others pc) (form.elements pc insn s.context) e s ↔
      (form = .literal → (s.context.v (insn.extractLsb' 0 5)).msb = 0) := by
  cases form with
  | literal =>
    rw [select_literal h.1, literal_clears_iff h.2 hacc]
    simp
  | pair =>
    rw [select_pair h.1]
    exact iff_of_true (pair_clears h.2.1 h.2.2 hacc) (by simp)
  | unsigned_offset =>
    obtain ⟨h22, h23, hselect⟩ := select_unsigned_offset h
    rw [hselect]
    exact iff_of_true (unsigned_offset_clears h22 h23 hacc) (by simp)
  | unscaled_immediate =>
    obtain ⟨-, h22, h23, h26, hselect⟩ := select_register (b := false) h.1
    rw [hselect, load_store_register_forms, h.2]
    simp only [h26, if_true]
    exact iff_of_true (unscaled_immediate_clears h22 h23 hacc) (by simp)
  | post_indexed =>
    obtain ⟨-, h22, h23, h26, hselect⟩ := select_register (b := false) h.1
    rw [hselect, load_store_register_forms, h.2]
    simp only [h26, if_true]
    exact iff_of_true (post_indexed_clears h22 h23 hacc) (by simp)
  | pre_indexed =>
    obtain ⟨-, h22, h23, h26, hselect⟩ := select_register (b := false) h.1
    rw [hselect, load_store_register_forms, h.2]
    simp only [h26, if_true]
    exact iff_of_true (pre_indexed_clears h22 h23 hacc) (by simp)
  | register_offset =>
    obtain ⟨h21, h22, h23, h26, hselect⟩ := select_register (b := true) h.1
    rw [hselect, load_store_register_forms, h.2.1]
    simp only [h21, h26, and_self, if_true]
    exact iff_of_true (register_offset_clears h22 h23 h.2.2 hacc) (by simp)

/-- LDR s0, literal, into a register that is clear. -/
theorem scalar_loads_clear_literal :
    scalar_load.literal.Encodes 0x1c000040#32 ∧
      ClearsRest (dis_load_store_insn 0x1c000040#32 (fun _ => pure ()) 0)
        (scalar_load.literal.elements 0 0x1c000040#32 ⟨fun _ => 0, fun _ => ⟨5, 0⟩⟩)
        ⟨fun _ _ => true, fun _ _ => 0⟩ ⟨⟨fun _ => 0, fun _ => ⟨5, 0⟩⟩, fun _ => 1⟩ :=
  have h : scalar_load.literal.Encodes 0x1c000040#32 := by
    unfold scalar_load.Encodes
    decide
  ⟨h, (scalar_loads_clear .literal (fun _ => pure ()) 0 0x1c000040#32 h _ _ fun _ _ => rfl).mpr
    fun _ => rfl⟩

/-- LDR s0, literal, into a register whose upper half is in use. -/
theorem literal_leaves_upper_half :
    scalar_load.literal.Encodes 0x1c000040#32 ∧
      ¬ ClearsRest (dis_load_store_insn 0x1c000040#32 (fun _ => pure ()) 0)
        (scalar_load.literal.elements 0 0x1c000040#32 ⟨fun _ => 0, fun _ => ⟨0, 1⟩⟩)
        ⟨fun _ _ => true, fun _ _ => 0⟩ ⟨⟨fun _ => 0, fun _ => ⟨0, 1⟩⟩, fun _ => 1⟩ := by
  have h : scalar_load.literal.Encodes 0x1c000040#32 := by
    unfold scalar_load.Encodes
    decide
  refine ⟨h, ?_⟩
  intro hclears
  rw [select_literal h.1] at hclears
  exact absurd ((literal_clears_iff h.2 fun _ _ => rfl).mp hclears) (by decide)

end forms

end Umeq.Arm64
