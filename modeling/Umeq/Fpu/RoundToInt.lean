import Umeq.Fpu.Convert
import Umeq.Fpu.ToInteger

/-! # `float32_round_to_int` and `float64_round_to_int`

    A word is rounded in place: bits are added at the place of the units, and a carry goes up into
    the exponent. Words below one are dealt with apart.

    * `round_to_int_met`: the result is the integer that the mode asks for, with the sign of the operand.
-/

namespace Umeq.Fpu

open Rounding

variable {F : float_format} {st : float_status} {a : ℕ}

/-! ## The function -/

/-- `~ x`, in a word. -/
def complement (F : float_format) (x : ℕ) : ℕ := 2 ^ F.width - 1 - x

/-- Below one. -/
def roundBelowOne (F : float_format) (a : ℕ) (st : float_status) : ℕ × float_status :=
  if (a <<< 1) % 2 ^ F.width = 0 then (a, st)
  else
    let st := float_raise float_flag_inexact st
    let aExp := extractFloatExp F a
    let aSign := extractFloatSign F a
    match st.float_rounding_mode with
    | .nearest_even =>
      if aExp = F.bias - 1 ∧ extractFloatFrac F a ≠ 0 then (packFloat F aSign F.bias 0, st) else (packFloat F aSign 0 0, st)
    | .ties_away => if aExp = F.bias - 1 then (packFloat F aSign F.bias 0, st) else (packFloat F aSign 0 0, st)
    | .down => (if aSign then 2 ^ (F.width - 1) + F.bias * 2 ^ F.frac_bits else 0, st)
    | .up => (if aSign then 2 ^ (F.width - 1) else F.bias * 2 ^ F.frac_bits, st)
    | .to_zero => (packFloat F aSign 0 0, st)

/-- Between one and the numbers that have no fraction. -/
def roundWord (F : float_format) (a : ℕ) (st : float_status) : ℕ :=
  let lastBitMask := 1 <<< (F.bias + F.frac_bits - extractFloatExp F a)
  let roundBitsMask := lastBitMask - 1
  let z := match st.float_rounding_mode with
    | .nearest_even =>
      let z := (a + lastBitMask >>> 1) % 2 ^ F.width
      if z &&& roundBitsMask = 0 then z &&& complement F lastBitMask else z
    | .ties_away => (a + lastBitMask >>> 1) % 2 ^ F.width
    | .to_zero => a
    | .up => if extractFloatSign F a then a else (a + roundBitsMask) % 2 ^ F.width
    | .down => if extractFloatSign F a then (a + roundBitsMask) % 2 ^ F.width else a
  z &&& complement F roundBitsMask

/-- After the operand is squashed. -/
def roundSquashed (F : float_format) (a : ℕ) (st : float_status) : ℕ × float_status :=
  let aExp := extractFloatExp F a
  if F.bias + F.frac_bits ≤ aExp then
    if aExp = F.exp_max ∧ extractFloatFrac F a ≠ 0 then propagateFloatNaN F a a st else (a, st)
  else if aExp < F.bias then roundBelowOne F a st
  else
    let z := roundWord F a st
    (z, if z ≠ a then float_raise float_flag_inexact st else st)

def float_round_to_int (F : float_format) (a : ℕ) (st : float_status) : ℕ × float_status :=
  let pa := float_squash_input_denormal F a st
  roundSquashed F pa.1 pa.2

/-! ## Masks -/

theorem and_complement {z k : ℕ} (hz : z < 2 ^ F.width) (hk : k ≤ F.width) :
    z &&& complement F (2 ^ k - 1) = z / 2 ^ k * 2 ^ k := by
  have hlow : 2 ^ k - 1 < 2 ^ F.width := by
    have hpos : 0 < 2 ^ k := by positivity
    have := Nat.pow_le_pow_right (n := 2) (by norm_num) hk
    omega
  apply Nat.eq_of_testBit_eq
  intro i
  rw [Nat.testBit_and, complement, Nat.sub_sub, Nat.add_comm 1, Nat.testBit_two_pow_sub_succ hlow,
    Nat.testBit_two_pow_sub_one, Nat.testBit_mul_two_pow, Nat.testBit_div_two_pow]
  by_cases hi : i < k
  · simp [hi]
  · by_cases hw : i < F.width
    · simp [hi, hw, not_lt.mp hi, Nat.sub_add_cancel (not_lt.mp hi)]
    · rw [Nat.sub_add_cancel (not_lt.mp hi), Nat.testBit_lt_two_pow (hz.trans_le
        (Nat.pow_le_pow_right (by norm_num) (not_lt.mp hw)))]
      simp

/-- One bit is cleared, above bits that are clear already. -/
theorem and_complement_bit {z k : ℕ} (hz : z < 2 ^ F.width) (hk : k < F.width) (hlow : z % 2 ^ k = 0) :
    z &&& complement F (2 ^ k) = z / 2 ^ (k + 1) * 2 ^ (k + 1) := by
  have hbit : 2 ^ k < 2 ^ F.width := Nat.pow_lt_pow_right (by norm_num) hk
  apply Nat.eq_of_testBit_eq
  intro i
  rw [Nat.testBit_and, complement, Nat.sub_sub, Nat.add_comm 1, Nat.testBit_two_pow_sub_succ hbit,
    Nat.testBit_two_pow, Nat.testBit_mul_two_pow, Nat.testBit_div_two_pow]
  rcases Nat.lt_trichotomy i k with hi | rfl | hi
  · have hclear : z.testBit i = false := by
      have h := Nat.testBit_mod_two_pow z k i
      rw [hlow, Nat.zero_testBit] at h
      simpa [hi] using h.symm
    simp [hclear, show ¬ k + 1 ≤ i by omega]
  · simp
  · by_cases hw : i < F.width
    · simp [show k + 1 ≤ i by omega, show ¬ k = i by omega, hw, Nat.sub_add_cancel (show k + 1 ≤ i by omega)]
    · rw [Nat.sub_add_cancel (show k + 1 ≤ i by omega), Nat.testBit_lt_two_pow (hz.trans_le
        (Nat.pow_le_pow_right (by norm_num) (not_lt.mp hw)))]
      simp

/-- The mask at the units is a rounding by an increment. -/
theorem roundWord_eq {k : ℕ} (hk : 1 ≤ k) (hexp : extractFloatExp F a + k = F.bias + F.frac_bits) (ha : a + 2 ^ k < 2 ^ F.width)
    (st : float_status) :
    roundWord F a st = round_significand (magnitude_mode (extractFloatSign F a) st.float_rounding_mode) k a * 2 ^ k := by
  have hmask : 1 <<< (F.bias + F.frac_bits - extractFloatExp F a) = 2 ^ k := by
    rw [Nat.one_shiftLeft]
    congr 1
    omega
  have hwide : k < F.width := by
    by_contra hcon
    have := Nat.pow_le_pow_right (n := 2) (by norm_num) (not_lt.mp hcon)
    omega
  have hhalf : 2 ^ k >>> 1 = 2 ^ (k - 1) := by
    rw [Nat.shiftRight_eq_div_pow, two_pow_pred hk, pow_one, Nat.mul_div_cancel_left _ (by norm_num)]
  have htwo := two_pow_pred hk
  have hpos : 0 < 2 ^ (k - 1) := by positivity
  have hword : ∀ i ≤ 2 ^ k, (a + i) % 2 ^ F.width = a + i := fun i hi => Nat.mod_eq_of_lt (by omega)
  -- a tie shows in the bits below, after the increment
  have htie : (a + 2 ^ (k - 1)) % 2 ^ k = 0 ↔ a % 2 ^ k = 2 ^ (k - 1) := by
    have hlt := Nat.mod_lt a (show 0 < 2 ^ k by positivity)
    rw [Nat.add_mod, Nat.mod_eq_of_lt (show 2 ^ (k - 1) < 2 ^ k by omega)]
    rcases Nat.lt_or_ge (a % 2 ^ k + 2 ^ (k - 1)) (2 ^ k) with h | h
    · rw [Nat.mod_eq_of_lt h]
      omega
    · rw [Nat.mod_eq_sub_mod h, Nat.mod_eq_of_lt (by omega)]
      omega
  unfold roundWord
  dsimp only
  rw [hmask, hhalf]
  rw [Nat.and_two_pow_sub_one_eq_mod, hword _ (by omega), hword _ (by omega)]
  unfold magnitude_mode
  cases hmode : st.float_rounding_mode with
  | nearest_even =>
    rw [show (if extractFloatSign F a = true then Mode.opposite .nearest_even else .nearest_even) = .nearest_even by
      cases extractFloatSign F a <;> rfl, round_significand]
    simp only [true_and, htie, increment]
    split_ifs with h
    · have hdiv : (a + 2 ^ (k - 1)) / 2 ^ (k + 1) * 2 ^ (k + 1) / 2 ^ k * 2 ^ k =
          2 * ((a + 2 ^ (k - 1)) / 2 ^ k / 2) * 2 ^ k := by
        rw [pow_succ, Nat.div_div_eq_div_mul, ← Nat.mul_assoc, Nat.mul_right_comm, Nat.mul_div_cancel _ (by positivity)]
        ring
      rw [and_complement_bit (by omega) hwide (htie.mpr h), and_complement _ hwide.le, hdiv]
      exact (Nat.div_mul_le_self _ _).trans_lt (by omega)
    · rw [and_complement (by omega) hwide.le]
  | ties_away =>
    dsimp only
    rw [show (if extractFloatSign F a = true then Mode.opposite .ties_away else .ties_away) = .ties_away by
      cases extractFloatSign F a <;> rfl, round_significand_of_ne (by decide), and_complement (by omega) hwide.le]
    rfl
  | to_zero =>
    dsimp only
    rw [show (if extractFloatSign F a = true then Mode.opposite .to_zero else .to_zero) = .to_zero by
      cases extractFloatSign F a <;> rfl, round_significand_down (Or.inr rfl), and_complement (by omega) hwide.le]
  | up =>
    dsimp only
    cases extractFloatSign F a with
    | false =>
      rw [if_neg Bool.false_ne_true, if_neg Bool.false_ne_true, and_complement (by omega) hwide.le,
        round_significand_of_ne (by decide)]
      rfl
    | true =>
      rw [if_pos rfl, if_pos rfl, and_complement (by omega) hwide.le, Mode.opposite, round_significand_down (Or.inl rfl)]
  | down =>
    dsimp only
    cases extractFloatSign F a with
    | false =>
      rw [if_neg Bool.false_ne_true, if_neg Bool.false_ne_true, and_complement (by omega) hwide.le,
        round_significand_down (Or.inl rfl)]
    | true =>
      rw [if_pos rfl, if_pos rfl, and_complement (by omega) hwide.le, Mode.opposite, round_significand_of_ne (by decide)]
      rfl

/-! ## What is delivered -/

/-- A finite word is rounded to an integer, with its sign. -/
structure Rounded (F : float_format) (a : ℕ) (st : float_status) (z : ℕ × float_status) : Prop where
  finite : Finite F z.1
  sign : extractFloatSign F z.1 = extractFloatSign F a
  value_eq : value F z.1 = round_integer st.float_rounding_mode (value F a)
  status : z.2 = float_raise (if value F z.1 = value F a then 0#8 else float_flag_inexact) st

theorem cast_signed_int (s : Bool) (n : ℕ) : ((signed_int s n : ℤ) : ℚ) = signed s n := by
  rw [signed_int, signed]
  cases s
  · rw [if_neg Bool.false_ne_true, if_neg Bool.false_ne_true, Int.cast_natCast]
  · rw [if_pos rfl, if_pos rfl, Int.cast_neg, Int.cast_natCast]

/-- The exponent and the significand of a word, one below the other. -/
theorem word_parts (ha : a < 2 ^ F.width) (hexp : 1 ≤ extractFloatExp F a) :
    a = (extractFloatSign F a).toNat * 2 ^ (F.width - 1) +
      ((extractFloatExp F a - 1) * 2 ^ F.frac_bits + significand F a) := by
  obtain ⟨M, hM, hMa⟩ := exists_sum ha
  have hlow : a % 2 ^ (F.width - 1) = M := by
    rw [hMa, Nat.mul_add_mod_self_right, Nat.mod_eq_of_lt hM]
  have hsplit := fields_split F a
  rw [hlow] at hsplit
  have hsig : significand F a = extractFloatFrac F a + 2 ^ F.frac_bits := by rw [significand, if_neg (by omega)]
  have hone : extractFloatExp F a * 2 ^ F.frac_bits =
      (extractFloatExp F a - 1) * 2 ^ F.frac_bits + 2 ^ F.frac_bits := by
    obtain ⟨e, he⟩ := Nat.exists_eq_add_of_le' hexp
    rw [he, Nat.add_sub_cancel, Nat.succ_mul]
  omega

/-- All that is above the significand is an even number of units. -/
theorem even_above {k e : ℕ} (hk : k ≤ F.frac_bits) (he : e + k = F.bias + F.frac_bits) (s : ℕ) :
    ∃ c, s * 2 ^ (F.width - 1) + (e - 1) * 2 ^ F.frac_bits = 2 * c * 2 ^ k := by
  have hbits : F.frac_bits + 2 ≤ F.width := by have := F.guard_eq; omega
  have hsign : 2 ^ (F.width - 1) = 2 * 2 ^ (F.width - 2 - k) * 2 ^ k := by
    rw [← pow_succ', ← pow_add]
    congr 1
    omega
  rcases Nat.lt_or_eq_of_le hk with hlt | heq
  · have hfrac : 2 ^ F.frac_bits = 2 * 2 ^ (F.frac_bits - 1 - k) * 2 ^ k := by
      rw [← pow_succ', ← pow_add]
      congr 1
      omega
    refine ⟨s * 2 ^ (F.width - 2 - k) + (e - 1) * 2 ^ (F.frac_bits - 1 - k), ?_⟩
    rw [hsign, hfrac]
    ring
  · -- the exponent is the bias, and one less is even
    obtain ⟨d, hd⟩ : ∃ d, e - 1 = 2 * d := by
      obtain rfl : e = F.bias := by omega
      cases F
      · exact ⟨63, rfl⟩
      · exact ⟨511, rfl⟩
    refine ⟨s * 2 ^ (F.width - 2 - k) + d, ?_⟩
    rw [hsign, hd, ← heq]
    ring

theorem roundWord_rounded (ha : Finite F a) (hlow : F.bias ≤ extractFloatExp F a)
    (hhigh : extractFloatExp F a < F.bias + F.frac_bits) (st : float_status) :
    Rounded F a st (roundWord F a st, if roundWord F a st ≠ a then float_raise float_flag_inexact st else st) := by
  obtain ⟨k, hk⟩ := Nat.exists_eq_add_of_le hhigh.le
  have hbias : 1 ≤ F.bias := by cases F <;> decide
  have hfits : F.bias + F.frac_bits + 1 < F.exp_max := by cases F <;> decide
  have hsig := significand_lt (F := F) (a := a)
  have hlead := significand_lead (F := F) (a := a) (by omega)
  have hkfrac : k ≤ F.frac_bits := by omega
  have hfrac : 2 ^ F.frac_bits = 2 ^ (F.frac_bits - k) * 2 ^ k := by
    rw [← pow_add, Nat.sub_add_cancel hkfrac]
  have hpow : 2 ^ k ≤ 2 ^ F.frac_bits := Nat.pow_le_pow_right (by norm_num) hkfrac
  have hprec : 2 ^ F.precision = 2 * 2 ^ F.frac_bits := by rw [float_format.precision, pow_succ']
  have hparts := word_parts ha.1 (show 1 ≤ extractFloatExp F a by omega)
  have hwide : F.exp_max * 2 ^ F.frac_bits < 2 ^ (F.width - 1) := by cases F <;> decide
  have htop := width_split_top F
  have hexps : (extractFloatExp F a - 1) * 2 ^ F.frac_bits + 2 * 2 ^ F.frac_bits < F.exp_max * 2 ^ F.frac_bits := by
    rw [← Nat.add_mul]
    exact Nat.mul_lt_mul_of_pos_right (by omega) (by positivity)
  have hroom : a + 2 ^ k < 2 ^ F.width := by
    have : (extractFloatSign F a).toNat * 2 ^ (F.width - 1) ≤ 1 * 2 ^ (F.width - 1) :=
      Nat.mul_le_mul_right _ (Bool.toNat_le _)
    have hfmax : (extractFloatExp F a - 1) * 2 ^ F.frac_bits + 3 * 2 ^ F.frac_bits ≤ F.exp_max * 2 ^ F.frac_bits := by
      rw [← Nat.add_mul]
      exact Nat.mul_le_mul_right _ (by omega)
    omega
  -- the significand is rounded in its place
  obtain ⟨c, hc⟩ := even_above hkfrac hk.symm (extractFloatSign F a).toNat
  have hmod := le_round_significand (S := significand F a) (g := k) (by omega)
    (magnitude_mode (extractFloatSign F a) st.float_rounding_mode)
  have hle := round_significand_le (S := significand F a) (g := k) (n := 2 * 2 ^ (F.frac_bits - k)) (by omega)
    (magnitude_mode (extractFloatSign F a) st.float_rounding_mode) (by rw [Nat.mul_assoc, ← hfrac]; omega)
  have hround := round_significand_integer (g := k) (by omega)
    (SameCell.refl (2 ^ (k - 1)) ((significand F a : ℕ) : ℚ))
    (magnitude_mode (extractFloatSign F a) st.float_rounding_mode)
  have hword : roundWord F a st = (extractFloatSign F a).toNat * 2 ^ (F.width - 1) +
      ((extractFloatExp F a - 1) * 2 ^ F.frac_bits +
        round_significand (magnitude_mode (extractFloatSign F a) st.float_rounding_mode) k (significand F a) * 2 ^ k) := by
    have hsum : a = 2 * c * 2 ^ k + significand F a := by omega
    have hround := round_significand_add (S := significand F a) (g := k)
      (magnitude_mode (extractFloatSign F a) st.float_rounding_mode) c
    rw [← hsum] at hround
    rw [roundWord_eq (by omega) hk.symm hroom, hround, Nat.add_mul, ← hc, Nat.add_assoc]
  generalize round_significand (magnitude_mode (extractFloatSign F a) st.float_rounding_mode) k (significand F a) = n at *
  have hn : 2 ^ F.frac_bits ≤ n * 2 ^ k := by
    rw [hfrac]
    apply Nat.mul_le_mul_right
    exact ((Nat.le_div_iff_mul_le (by positivity)).mpr (by rwa [← hfrac])).trans hmod
  have hn' : n * 2 ^ k ≤ 2 ^ F.precision := by
    rw [hprec, hfrac, ← Nat.mul_assoc]
    exact Nat.mul_le_mul_right _ hle
  have hsum : (extractFloatExp F a - 1) * 2 ^ F.frac_bits + n * 2 ^ k < F.exp_max * 2 ^ F.frac_bits := by omega
  obtain ⟨hfinite, hsign, hvalue⟩ := pack_spec (extractFloatSign F a) (Or.inl hn) hn' hsum
  rw [packFloat_eq _ (by omega), ← hword] at hfinite hsign hvalue
  -- one unit of the significand is one
  have hscale : ∀ x : ℚ, x * 2 ^ k * 2 ^ ((extractFloatExp F a - 1 : ℕ) + F.emin : ℤ) = x := by
    intro x
    have hzero : (k : ℤ) + ((extractFloatExp F a - 1 : ℕ) + F.emin) = 0 := by
      rw [float_format.emin]
      omega
    rw [mul_assoc, ← zpow_natCast, ← zpow_add₀ (by norm_num), hzero, zpow_zero, mul_one]
  have hmag : magnitude F a = significand F a / 2 ^ k := by
    have h := hscale (significand F a / 2 ^ k)
    rw [div_mul_cancel₀ _ (by positivity)] at h
    rw [← h, magnitude, scale, if_neg (by omega)]
    congr 2
    omega
  have hvalue' : value F (roundWord F a st) = round_integer st.float_rounding_mode (value F a) := by
    have hint := round_integer_signed hround
    rw [← hmag] at hint
    push_cast at hvalue
    rw [hvalue, hscale, value, ← hint, cast_signed_int]
  refine ⟨hfinite, hsign, hvalue', ?_⟩
  have hsame : value F (roundWord F a st) = value F a ↔ roundWord F a st = a :=
    ⟨word_ext hfinite.1 ha.1 hsign, fun h => by rw [h]⟩
  dsimp only
  by_cases heq : roundWord F a st = a
  · rw [if_pos (hsame.mpr heq), if_neg (not_not.mpr heq), raise_zero]
  · rw [if_neg fun h => heq (hsame.mp h), if_pos heq]

/-- What the modes make of a magnitude below one. -/
theorem below_one {x : ℚ} (hx : 0 < x) (hx' : x < 1) (m : Mode) :
    round_integer m x = match m with
      | .nearest_even => if 1 < 2 * x then 1 else 0
      | .ties_away => if 1 ≤ 2 * x then 1 else 0
      | .up => 1
      | .down | .to_zero => 0 := by
  have hlow : ((0 : ℕ) : ℚ) ≤ x := by rw [Nat.cast_zero]; exact hx.le
  have hhigh : x < ((0 : ℕ) : ℚ) + 1 := by rw [Nat.cast_zero, zero_add]; exact hx'
  have haway := round_integer_away hlow hhigh
  have heven := round_integer_even hlow hhigh
  have htie := round_integer_tie hlow hhigh
  simp only [Nat.cast_zero, mul_zero, zero_add] at haway heven htie
  cases m with
  | down => exact (floor_between hlow hhigh).trans Nat.cast_zero
  | to_zero => exact (round_integer_to_zero hlow hhigh).trans Nat.cast_zero
  | up =>
    have hne : ¬ x = ((0 : ℕ) : ℚ) := by rw [Nat.cast_zero]; exact hx.ne'
    rw [round_integer_up hlow hhigh, if_neg hne]
    rfl
  | ties_away =>
    rw [haway]
    by_cases h : 2 * x < 1
    · rw [if_pos h, if_neg h.not_ge]
    · rw [if_neg h, if_pos (not_lt.mp h)]
  | nearest_even =>
    dsimp only
    rcases lt_trichotomy (2 * x) 1 with h | h | h
    · rw [heven h.ne, haway, if_pos h, if_neg h.not_gt]
    · rw [htie h, if_neg h.not_gt]
      rfl
    · rw [heven h.ne', haway, if_neg h.not_gt, if_pos h]

/-- The exponent tells on which side of one half a magnitude is. -/
theorem half_exponent (hexp : extractFloatExp F a < F.bias) :
    (1 ≤ 2 * magnitude F a ↔ extractFloatExp F a = F.bias - 1) ∧
      (1 < 2 * magnitude F a ↔ extractFloatExp F a = F.bias - 1 ∧ extractFloatFrac F a ≠ 0) := by
  have hbias : 4 ≤ F.bias := by cases F <;> decide
  have hpos : (0 : ℚ) < 2 ^ F.frac_bits := by positivity
  by_cases heq : extractFloatExp F a = F.bias - 1
  · have hscale : scale F a = -1 - F.frac_bits := by
      rw [scale, if_neg (by omega), float_format.emin]
      omega
    have hmag : 2 * magnitude F a = 1 + extractFloatFrac F a / 2 ^ F.frac_bits := by
      rw [magnitude, hscale, significand, if_neg (by omega), zpow_sub₀ (by norm_num), zpow_natCast, zpow_neg_one]
      push_cast
      field_simp
      ring
    have hnonneg : (0 : ℚ) ≤ extractFloatFrac F a / 2 ^ F.frac_bits := by positivity
    rw [hmag]
    refine ⟨⟨fun _ => heq, fun _ => by linarith⟩, ⟨fun h => ⟨heq, fun hzero => ?_⟩, fun h => ?_⟩⟩
    · rw [hzero, Nat.cast_zero, zero_div, add_zero] at h
      exact lt_irrefl _ h
    · have : (0 : ℚ) < extractFloatFrac F a / 2 ^ F.frac_bits :=
        div_pos (by exact_mod_cast Nat.pos_of_ne_zero h.2) hpos
      linarith
  · have hsig : (significand F a : ℚ) < 2 ^ F.precision := by exact_mod_cast significand_lt
    have hlt : 2 * magnitude F a < 1 := by
      calc 2 * magnitude F a = significand F a * 2 ^ (scale F a + 1) := by
            rw [magnitude, zpow_add_one₀ (by norm_num)]
            ring
        _ < 2 ^ F.precision * 2 ^ (scale F a + 1) := mul_lt_mul_of_pos_right hsig (by positivity)
        _ = 2 ^ ((F.precision : ℤ) + (scale F a + 1)) := by rw [zpow_add₀ (by norm_num) (F.precision : ℤ), zpow_natCast]
        _ ≤ 2 ^ (0 : ℤ) := by
            apply zpow_le_zpow_right₀ (by norm_num)
            rw [scale, float_format.emin, float_format.precision]
            split_ifs <;> omega
        _ = 1 := zpow_zero _
    exact ⟨⟨fun h => absurd hlt h.not_gt, fun h => absurd h heq⟩,
      ⟨fun h => absurd hlt (not_lt.mpr h.le), fun h => absurd h.1 heq⟩⟩

/-- One and zero, with a sign. -/
theorem unit_word (F : float_format) (s c : Bool) :
    Finite F (packFloat F s (if c then F.bias else 0) 0) ∧
      extractFloatSign F (packFloat F s (if c then F.bias else 0) 0) = s ∧
      value F (packFloat F s (if c then F.bias else 0) 0) = signed s (if c then 1 else 0) := by
  cases c with
  | false =>
    have h := pack_spec (F := F) s (k := 0) (n := 0) (Or.inr rfl) (Nat.zero_le _) (by cases F <;> decide)
    simpa using h
  | true =>
    have hbias : ((F.bias : ℤ)) = ((F.bias - 1 : ℕ) : ℤ) + 1 := by cases F <;> rfl
    have h := pack_spec (F := F) s (k := F.bias - 1) (n := 2 ^ F.frac_bits) (Or.inl (le_refl _))
      (Nat.pow_le_pow_right (by norm_num) (Nat.le_succ _)) (by cases F <;> decide)
    have hone : ((2 ^ F.frac_bits : ℕ) : ℚ) * 2 ^ (((F.bias - 1 : ℕ) : ℤ) + F.emin) = 1 := by
      rw [Nat.cast_pow, Nat.cast_ofNat, ← zpow_natCast, ← zpow_add₀ (by norm_num), ← zpow_zero (2 : ℚ)]
      congr 1
      cases F <;> rfl
    rw [hone] at h
    rw [if_pos rfl, if_pos rfl, hbias, packFloat_carry, zero_add]
    exact h

theorem roundBelowOne_rounded (ha : Finite F a) (hexp : extractFloatExp F a < F.bias) (st : float_status) :
    Rounded F a st (roundBelowOne F a st) := by
  have htop := width_split_top F
  have hzero : (a <<< 1) % 2 ^ F.width = 0 ↔ a % 2 ^ (F.width - 1) = 0 := by
    rw [Nat.shiftLeft_eq, pow_one, htop, Nat.mul_comm, Nat.mul_mod_mul_left]
    omega
  unfold roundBelowOne
  by_cases hmod : a % 2 ^ (F.width - 1) = 0
  · -- a zero stays
    rw [if_pos (hzero.mpr hmod)]
    have hvalue : value F a = 0 := by rw [value, magnitude_of_zero hmod, signed_zero]
    refine ⟨ha, rfl, ?_, ?_⟩
    · rw [hvalue, round_integer_zero, Int.cast_zero]
    · rw [if_pos rfl, raise_zero]
  · have hpos := magnitude_of_pos (Nat.pos_of_ne_zero hmod)
    have hlt := magnitude_lt_one hexp
    have hround := below_one hpos hlt (magnitude_mode (extractFloatSign F a) st.float_rounding_mode)
    obtain ⟨hhalf, hmore⟩ := half_exponent hexp
    -- every branch returns one or zero with the sign of the operand
    have hunit : ∀ c : Bool, (round_integer (magnitude_mode (extractFloatSign F a) st.float_rounding_mode) (magnitude F a)
          = if c then 1 else 0) →
        Rounded F a st (packFloat F (extractFloatSign F a) (if c then F.bias else 0) 0, float_raise float_flag_inexact st) := by
      intro c hc
      obtain ⟨hfinite, hsign, hvalue⟩ := unit_word F (extractFloatSign F a) c
      have hround : ((if c then 1 else 0 : ℕ) : ℤ) =
          round_integer (magnitude_mode (extractFloatSign F a) st.float_rounding_mode) (magnitude F a) := by
        rw [hc]
        cases c <;> rfl
      have hint := round_integer_signed hround
      refine ⟨hfinite, hsign, ?_, ?_⟩
      · rw [hvalue, value, ← hint, cast_signed_int]
        cases c <;> simp
      · have hne : value F (packFloat F (extractFloatSign F a) (if c then F.bias else 0) 0) ≠ value F a := by
          intro heq
          have habs : |value F a| = if c then 1 else 0 := by
            rw [← heq, hvalue, abs_signed]
            cases c <;> simp
          rw [abs_value] at habs
          cases c
          · exact hpos.ne' habs
          · exact hlt.ne habs
        dsimp only
        rw [if_neg hne]
    have hdown : 2 ^ (F.width - 1) + F.bias * 2 ^ F.frac_bits = packFloat F true (if true then F.bias else 0) 0 := by
      cases F <;> rfl
    have hup : F.bias * 2 ^ F.frac_bits = packFloat F false (if true then F.bias else 0) 0 := by cases F <;> rfl
    have hminus : 2 ^ (F.width - 1) = packFloat F true (if false then F.bias else 0) 0 := by cases F <;> rfl
    have hplus : 0 = packFloat F false (if false then F.bias else 0) 0 := by cases F <;> rfl
    rw [if_neg fun h => hmod (hzero.mp h)]
    simp only [raise_mode]
    unfold magnitude_mode at hround hunit
    cases hmode : st.float_rounding_mode with
    | nearest_even =>
      rw [hmode, show (if extractFloatSign F a = true then Mode.opposite .nearest_even else .nearest_even) = .nearest_even by
        cases extractFloatSign F a <;> rfl] at hround hunit
      dsimp only
      split_ifs with h
      · exact hunit true (hround.trans (if_pos (hmore.mpr h)))
      · exact hunit false (hround.trans (if_neg fun hc => h (hmore.mp hc)))
    | ties_away =>
      rw [hmode, show (if extractFloatSign F a = true then Mode.opposite .ties_away else .ties_away) = .ties_away by
        cases extractFloatSign F a <;> rfl] at hround hunit
      dsimp only
      split_ifs with h
      · exact hunit true (hround.trans (if_pos (hhalf.mpr h)))
      · exact hunit false (hround.trans (if_neg fun hc => h (hhalf.mp hc)))
    | to_zero =>
      rw [hmode, show (if extractFloatSign F a = true then Mode.opposite .to_zero else .to_zero) = .to_zero by
        cases extractFloatSign F a <;> rfl] at hround hunit
      exact hunit false hround
    | up =>
      dsimp only
      cases hsign : extractFloatSign F a with
      | false =>
        rw [hmode, hsign, if_neg Bool.false_ne_true] at hround hunit
        rw [if_neg Bool.false_ne_true, hup]
        exact hunit true hround
      | true =>
        rw [hmode, hsign, if_pos rfl] at hround hunit
        rw [if_pos rfl, hminus]
        exact hunit false hround
    | down =>
      dsimp only
      cases hsign : extractFloatSign F a with
      | false =>
        rw [hmode, hsign, if_neg Bool.false_ne_true] at hround hunit
        rw [if_neg Bool.false_ne_true]
        have h := hunit false hround
        rwa [← hplus] at h
      | true =>
        rw [hmode, hsign, if_pos rfl] at hround hunit
        rw [if_pos rfl, hdown]
        exact hunit true hround

/-- Words that have no fraction are integers already. -/
theorem integral_rounded (ha : Finite F a) (hexp : F.bias + F.frac_bits ≤ extractFloatExp F a) (st : float_status) :
    Rounded F a st (a, st) := by
  obtain ⟨k, hk⟩ := Nat.exists_eq_add_of_le hexp
  have hbias : 1 ≤ F.bias := by cases F <;> decide
  have hmag : magnitude F a = ((significand F a * 2 ^ k : ℕ) : ℚ) := by
    rw [magnitude, scale, if_neg (by omega), float_format.emin]
    rw [show (extractFloatExp F a : ℤ) - 1 + (1 - F.bias - F.frac_bits) = (k : ℤ) by omega, zpow_natCast]
    push_cast
    rfl
  have hint : round_integer st.float_rounding_mode (value F a) = signed_int (extractFloatSign F a) (significand F a * 2 ^ k) := by
    apply le_antisymm
    · apply round_integer_le
      rw [cast_signed_int, ← hmag, value]
    · apply le_round_integer
      rw [cast_signed_int, ← hmag, value]
  refine ⟨ha, rfl, ?_, ?_⟩
  · rw [hint, cast_signed_int, ← hmag, value]
  · rw [if_pos rfl, raise_zero]

theorem roundSquashed_rounded (ha : Finite F a) (st : float_status) : Rounded F a st (roundSquashed F a st) := by
  unfold roundSquashed
  dsimp only
  by_cases hhigh : F.bias + F.frac_bits ≤ extractFloatExp F a
  · rw [if_pos hhigh, if_neg fun h => ha.2 h.1]
    exact integral_rounded ha hhigh st
  · rw [if_neg hhigh]
    by_cases hlow : extractFloatExp F a < F.bias
    · rw [if_pos hlow]
      exact roundBelowOne_rounded ha hlow st
    · rw [if_neg hlow]
      exact roundWord_rounded ha (not_lt.mp hlow) (not_le.mp hhigh) st

/-- Every word is rounded to an integer in its own format: a finite one to the integer that the mode asks for, with
    its sign, and inexact is raised just when that is another number; an infinity stays, and a NaN is passed on. -/
theorem round_to_int_met (ha : a < 2 ^ F.width) (st : float_status) :
    let pa := float_squash_input_denormal F a st
    let z := float_round_to_int F a st
    (Finite F pa.1 → Rounded F pa.1 pa.2 z) ∧ (IsInfinity F pa.1 → z = pa) ∧
      (IsNaN F pa.1 → Outcome.nan.Met F pa.2 pa.1 pa.1 z) := by
  intro pa z
  have hword : pa.1 < 2 ^ F.width := squash_word ha st
  have hmax : F.bias + F.frac_bits ≤ F.exp_max := by cases F <;> decide
  have hz : z = roundSquashed F pa.1 pa.2 := rfl
  rw [hz, roundSquashed]
  refine ⟨fun h => roundSquashed_rounded h pa.2, fun h => ?_, fun h => ?_⟩
  · dsimp only
    rw [h.1, if_pos hmax, if_neg fun hc => hc.2 h.2]
  · dsimp only
    rw [if_pos (h.1 ▸ hmax), if_pos ⟨h.1, h.2⟩]
    exact nan_met hword hword (Or.inl h)

/-- `2.5` in the mode that is set at first. -/
theorem round_to_int_met_half :
    let z := float_round_to_int .float32 0x40200000 initial_status
    (Finite .float32 0x40200000 → Rounded .float32 0x40200000 initial_status z) ∧
      (IsInfinity .float32 0x40200000 → z = (0x40200000, initial_status)) ∧
      (IsNaN .float32 0x40200000 → Outcome.nan.Met .float32 initial_status 0x40200000 0x40200000 z) :=
  @round_to_int_met .float32 0x40200000 (by decide) initial_status

end Umeq.Fpu
