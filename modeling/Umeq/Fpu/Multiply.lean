import Umeq.Fpu.Operands

/-! # `float32_mul` and `float64_mul`

    The upper half of the product of two significands, with a sticky bit for the lower half.

    * `float_mul_delivered`: the product of finite operands, rounded.
-/

namespace Umeq.Fpu

open Rounding

variable {F : float_format} {st : float_status} {a b : ℕ}

/-! ## The function -/

/-- The upper word of a product, with what is below it in its lowest bit: in one word of 64 bits
    for `float32`, in two of them for `float64`. -/
def mulSig (F : float_format) (aSig bSig : ℕ) : ℕ :=
  match F with
  | .float32 => shift64RightJamming (aSig * bSig) 32 % 2 ^ 32
  | .float64 => let z := mul64To128 aSig bSig; z.1 ||| if z.2 ≠ 0 then 1 else 0

/-- After the special operands. -/
def mulFinite (F : float_format) (zSign : Bool) (a b : ℤ × ℕ) (st : float_status) : ℕ × float_status :=
  let zExp := a.1 + b.1 - F.bias
  let aSig := ((a.2 ||| 2 ^ F.frac_bits) <<< F.guard) % 2 ^ F.width
  let bSig := ((b.2 ||| 2 ^ F.frac_bits) <<< (F.guard + 1)) % 2 ^ F.width
  let zSig := mulSig F aSig bSig
  if (zSig <<< 1) % 2 ^ F.width < 2 ^ (F.width - 1) then
    roundAndPackFloat F zSign (zExp - 1) ((zSig <<< 1) % 2 ^ F.width) st
  else roundAndPackFloat F zSign zExp zSig st

/-- After the operands are squashed. -/
def mulSquashed (F : float_format) (a b : ℕ) (st : float_status) : ℕ × float_status :=
  let aSig := extractFloatFrac F a
  let aExp := extractFloatExp F a
  let bSig := extractFloatFrac F b
  let bExp := extractFloatExp F b
  let zSign := extractFloatSign F a ^^ extractFloatSign F b
  if aExp = F.exp_max then
    if aSig ≠ 0 ∨ bExp = F.exp_max ∧ bSig ≠ 0 then propagateFloatNaN F a b st
    else if bExp = 0 ∧ bSig = 0 then (float_default_nan F, float_raise float_flag_invalid st)
    else (packFloat F zSign F.exp_max 0, st)
  else if bExp = F.exp_max then
    if bSig ≠ 0 then propagateFloatNaN F a b st
    else if aExp = 0 ∧ aSig = 0 then (float_default_nan F, float_raise float_flag_invalid st)
    else (packFloat F zSign F.exp_max 0, st)
  else if aExp = 0 ∧ aSig = 0 then (packFloat F zSign 0 0, st)
  else if bExp = 0 ∧ bSig = 0 then (packFloat F zSign 0 0, st)
  else mulFinite F zSign (unpacked F aExp aSig) (unpacked F bExp bSig) st

def float_mul (F : float_format) (a b : ℕ) (st : float_status) : ℕ × float_status :=
  let pa := float_squash_input_denormal F a st
  let pb := float_squash_input_denormal F b pa.2
  mulSquashed F pa.1 pb.1 pb.2

def float32_mul (a b : ℕ) (st : float_status) : ℕ × float_status := float_mul .float32 a b st

def float64_mul (a b : ℕ) (st : float_status) : ℕ × float_status := float_mul .float64 a b st

/-! ## The product -/

theorem mulSig_eq {A B : ℕ} (hA : A < 2 ^ F.width) (hB : B < 2 ^ F.width) (hAB : A * B < 2 ^ (2 * F.width - 1)) :
    mulSig F A B = jam (A * B) F.width := by
  cases F with
  | float32 =>
    simp only [mulSig, float_format.width] at hAB ⊢
    have hlt : jam (A * B) 32 < 2 ^ 32 := by
      have := jam_le (a := A * B) (n := 32) (m := 2 ^ 31) (by omega) (by norm_num)
      omega
    rw [shift64RightJamming, shiftRightJamming_eq (by omega), Nat.mod_eq_of_lt hlt]
  | float64 =>
    simp only [mulSig, float_format.width] at hA hB ⊢
    rw [mul64To128_eq hA hB, jam]
    congr 1
    simp only [ite_not]

/-- The upper word of the product of two significands with their leading bits. -/
theorem product_bounds {A B : ℕ} (hA : 2 ^ F.frac_bits ≤ A) (hA' : A < 2 ^ F.precision)
    (hB : 2 ^ F.frac_bits ≤ B) (hB' : B < 2 ^ F.precision) :
    2 ^ (F.width - 3) * 2 ^ F.width ≤ A * 2 ^ F.guard * (B * 2 ^ (F.guard + 1)) ∧
      A * 2 ^ F.guard * (B * 2 ^ (F.guard + 1)) < 2 ^ (F.width - 1) * 2 ^ F.width := by
  have hlow := Nat.mul_le_mul hA hB
  have hhigh := Nat.mul_lt_mul'' hA' hB'
  have hsplit : A * 2 ^ F.guard * (B * 2 ^ (F.guard + 1)) = A * B * (2 ^ F.guard * 2 ^ (F.guard + 1)) := by ring
  rw [hsplit]
  constructor
  · calc 2 ^ (F.width - 3) * 2 ^ F.width
        = 2 ^ F.frac_bits * 2 ^ F.frac_bits * (2 ^ F.guard * 2 ^ (F.guard + 1)) := by cases F <;> rfl
      _ ≤ _ := Nat.mul_le_mul_right _ hlow
  · calc A * B * (2 ^ F.guard * 2 ^ (F.guard + 1))
        < 2 ^ F.precision * 2 ^ F.precision * (2 ^ F.guard * 2 ^ (F.guard + 1)) :=
          Nat.mul_lt_mul_of_pos_right hhigh (by positivity)
      _ = 2 ^ (F.width - 1) * 2 ^ F.width := by cases F <;> rfl

theorem product_scale (A B : ℚ) (u v : ℤ) (n : ℕ) :
    A * 2 ^ u * (B * 2 ^ v) = A * B / 2 ^ n * 2 ^ (u + v + n) := by
  rw [zpow_add₀ (by norm_num), zpow_add₀ (by norm_num), zpow_natCast]
  field_simp

theorem mulFinite_delivered {zSign : Bool} {ea eb : ℤ} {sa sb : ℕ}
    (ha : Unpacked F a ea (sa ||| 2 ^ F.frac_bits)) (hb : Unpacked F b eb (sb ||| 2 ^ F.frac_bits))
    (htiny : st.float_detect_tininess = .float_tininess_before_rounding) :
    Delivered F st zSign (signed zSign (magnitude F a * magnitude F b))
      (mulFinite F zSign (ea, sa) (eb, sb) st) := by
  obtain ⟨hA, hA', hea, hea', hmaga⟩ := ha
  obtain ⟨hB, hB', heb, heb', hmagb⟩ := hb
  obtain ⟨hlow, hhigh⟩ := product_bounds hA hA' hB hB'
  unfold mulFinite
  dsimp only
  generalize sa ||| 2 ^ F.frac_bits = A at *
  generalize sb ||| 2 ^ F.frac_bits = B at *
  -- the shifted significands fit their words
  have hwa : A * 2 ^ F.guard < 2 ^ F.width := by
    have := Nat.mul_lt_mul_of_pos_right hA' (show 0 < 2 ^ F.guard by positivity)
    rw [← width_split] at this
    have := width_split_top F
    omega
  have hwb : B * 2 ^ (F.guard + 1) < 2 ^ F.width := by
    have := Nat.mul_lt_mul_of_pos_right hB' (show 0 < 2 ^ F.guard by positivity)
    rw [← width_split] at this
    have := width_split_top F
    rw [pow_succ, ← mul_assoc]
    omega
  have hsum : 2 ^ (F.width - 1) * 2 ^ F.width = 2 ^ (2 * F.width - 1) := by cases F <;> rfl
  simp only [Nat.shiftLeft_eq, Nat.mod_eq_of_lt hwa, Nat.mod_eq_of_lt hwb]
  rw [mulSig_eq hwa hwb (by rw [← hsum]; exact hhigh)]
  have hS : 2 ^ (F.width - 3) ≤ jam (A * 2 ^ F.guard * (B * 2 ^ (F.guard + 1))) F.width :=
    le_jam hlow (by cases F <;> rfl)
  have hS' : jam (A * 2 ^ F.guard * (B * 2 ^ (F.guard + 1))) F.width < 2 ^ (F.width - 1) :=
    jam_lt hhigh (by cases F <;> rfl)
  have hcell := sameCell_jam (A * 2 ^ F.guard * (B * 2 ^ (F.guard + 1))) F.width
  have hY : ((A * 2 ^ F.guard * (B * 2 ^ (F.guard + 1)) : ℕ) : ℚ) / 2 ^ F.width
      = A * B * 2 ^ F.guard / 2 ^ F.precision := by
    have : (2 : ℚ) ^ F.width = 2 ^ F.precision * 2 ^ (F.guard + 1) := by
      rw [← pow_add, float_format.precision, ← F.guard_eq]
      congr 1
      omega
    rw [this]
    push_cast
    field_simp
  rw [hY, ← pow_one (2 : ℚ)] at hcell
  generalize jam (A * 2 ^ F.guard * (B * 2 ^ (F.guard + 1))) F.width = S at *
  have htop := width_split_top F
  have hquarter : 2 ^ (F.width - 1) = 2 * 2 ^ (F.width - 2) := by cases F <;> rfl
  have heighth : 2 ^ (F.width - 2) = 2 * 2 ^ (F.width - 3) := by cases F <;> rfl
  rw [pow_one, Nat.mod_eq_of_lt (by omega)]
  have hbias : F.bias < 2 ^ 11 := by cases F <;> decide
  have hemin : (F.emin : ℤ) = 1 - F.bias - F.frac_bits := rfl
  split_ifs with hshift
  · -- the product has no leading bit
    have hnorm : Normalized F (S * 2) (A * B * 2 ^ F.guard / 2 ^ F.precision * 2) := by
      refine ⟨by omega, by omega, ?_⟩
      have hscaled := hcell.scale (c := 2) (by norm_num)
      rw [← pow_succ] at hscaled
      push_cast
      exact hscaled.pow_le (by cases F <;> decide)
    convert roundAndPack_delivered zSign (ea + eb - F.bias - 1) hnorm (by omega) (by omega)
      htiny using 2
    rw [hmaga, hmagb, product_scale A B (ea - 1 + F.emin) (eb - 1 + F.emin) F.frac_bits,
      show ea + eb - F.bias - 1 + F.emin = ea - 1 + F.emin + (eb - 1 + F.emin) + F.frac_bits by rw [hemin]; ring,
      float_format.precision, pow_succ]
    field_simp
  · have hnorm : Normalized F S (A * B * 2 ^ F.guard / 2 ^ F.precision) :=
      ⟨by omega, hS', hcell.pow_le (by cases F <;> decide)⟩
    convert roundAndPack_delivered zSign (ea + eb - F.bias) hnorm (by omega) (by omega)
      htiny using 2
    have hprec : (F.precision : ℤ) = F.frac_bits + 1 := rfl
    rw [hmaga, hmagb, product_scale A B (ea - 1 + F.emin) (eb - 1 + F.emin) F.precision,
      show ea + eb - F.bias + F.emin = ea - 1 + F.emin + (eb - 1 + F.emin) + F.precision by
        rw [hemin, hprec]; ring]
    field_simp

theorem mulSquashed_delivered (ha : Finite F a) (hb : Finite F b)
    (htiny : st.float_detect_tininess = .float_tininess_before_rounding) :
    Delivered F st (extractFloatSign F a ^^ extractFloatSign F b) (value F a * value F b)
      (mulSquashed F a b st) := by
  unfold mulSquashed
  dsimp only
  rw [if_neg ha.2, if_neg hb.2, value, value, signed_mul]
  by_cases hza : extractFloatExp F a = 0 ∧ extractFloatFrac F a = 0
  · rw [if_pos hza, magnitude_zero hza, zero_mul, signed_zero]
    exact delivered_zero _ _
  by_cases hzb : extractFloatExp F b = 0 ∧ extractFloatFrac F b = 0
  · rw [if_neg hza, if_pos hzb, magnitude_zero hzb, mul_zero, signed_zero]
    exact delivered_zero _ _
  rw [if_neg hza, if_neg hzb]
  exact mulFinite_delivered (unpacked_spec ha hza) (unpacked_spec hb hzb) htiny

/-- The product of finite operands, rounded as the mode asks for. -/
theorem float_mul_delivered (ha : Finite F a) (hb : Finite F b)
    (htiny : st.float_detect_tininess = .float_tininess_before_rounding) :
    let pa := float_squash_input_denormal F a st
    let pb := float_squash_input_denormal F b pa.2
    Delivered F pb.2 (extractFloatSign F a ^^ extractFloatSign F b) (value F pa.1 * value F pb.1)
      (float_mul F a b st) := by
  intro pa pb
  obtain ⟨hpa, hsa, -⟩ := squash_finite ha st
  obtain ⟨hpb, hsb, -⟩ := squash_finite hb pa.2
  have htiny' : pb.2.float_detect_tininess = .float_tininess_before_rounding := by
    rw [(squash_modes F b pa.2).detect, (squash_modes F a st).detect, htiny]
  rw [← hsa, ← hsb]
  exact mulSquashed_delivered hpa hpb htiny'

/-- `0.5 * 0.5`. -/
theorem float_mul_delivered_halves :
    Delivered .float32 initial_status false (value .float32 0x3F000000 * value .float32 0x3F000000)
      (float_mul .float32 0x3F000000 0x3F000000 initial_status) :=
  @float_mul_delivered .float32 initial_status 0x3F000000 0x3F000000 (by decide) (by decide) rfl

end Umeq.Fpu
