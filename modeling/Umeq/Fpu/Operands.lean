import Umeq.Fpu.RoundAndPack
import Umeq.Fpu.Specialize

/-! # Operands of the operations

    Before an operation computes, subnormal operands are squashed when inputs are flushed, and
    the subnormal ones that are left get a leading bit and an exponent below one.

    * `squash_finite`: a squashed operand.
    * `unpacked`: the exponent and the significand an operation works with.
-/

namespace Umeq.Fpu

open Rounding

variable {F : float_format} {st : float_status} {a b : ℕ}

/-! ## Squashing -/

/-- `float32_squash_input_denormal` and `float64_squash_input_denormal`. -/
def float_squash_input_denormal (F : float_format) (a : ℕ) (st : float_status) : ℕ × float_status :=
  if st.flush_inputs_to_zero ∧ extractFloatExp F a = 0 ∧ extractFloatFrac F a ≠ 0 then
    (a &&& 2 ^ (F.width - 1), float_raise float_flag_input_denormal st)
  else (a, st)

theorem squash_off (h : st.flush_inputs_to_zero = false) : float_squash_input_denormal F a st = (a, st) := by
  simp [float_squash_input_denormal, h]

/-- Only the flags of a status are written. -/
structure SameModes (st st' : float_status) : Prop where
  detect : st'.float_detect_tininess = st.float_detect_tininess
  rounding : st'.float_rounding_mode = st.float_rounding_mode
  flush : st'.flush_to_zero = st.flush_to_zero
  flush_inputs : st'.flush_inputs_to_zero = st.flush_inputs_to_zero
  default_nan : st'.default_nan_mode = st.default_nan_mode

theorem SameModes.refl (st : float_status) : SameModes st st := ⟨rfl, rfl, rfl, rfl, rfl⟩

theorem SameModes.raise (flags : BitVec 8) (st : float_status) : SameModes st (float_raise flags st) :=
  ⟨rfl, rfl, rfl, rfl, rfl⟩

theorem SameModes.trans {st st' st'' : float_status} (h : SameModes st st') (h' : SameModes st' st'') :
    SameModes st st'' :=
  ⟨h'.detect.trans h.detect, h'.rounding.trans h.rounding, h'.flush.trans h.flush,
    h'.flush_inputs.trans h.flush_inputs, h'.default_nan.trans h.default_nan⟩

theorem squash_modes (F : float_format) (a : ℕ) (st : float_status) :
    SameModes st (float_squash_input_denormal F a st).2 := by
  unfold float_squash_input_denormal
  split_ifs
  · exact SameModes.raise _ _
  · exact SameModes.refl _

theorem and_sign_bit (ha : a < 2 ^ F.width) :
    a &&& 2 ^ (F.width - 1) = (extractFloatSign F a).toNat * 2 ^ (F.width - 1) + 0 := by
  have hbit : a.testBit (F.width - 1) = extractFloatSign F a := by
    have htop := width_split_top F
    have hlt : a / 2 ^ (F.width - 1) < 2 := Nat.div_lt_of_lt_mul (by omega)
    rw [Nat.testBit_eq_decide_div_mod_eq, extractFloatSign, Nat.shiftRight_eq_div_pow, Nat.mod_eq_of_lt hlt]
    generalize a / 2 ^ (F.width - 1) = q at *
    rcases (by omega : q = 0 ∨ q = 1) with rfl | rfl <;> rfl
  rw [Nat.and_two_pow, hbit, Nat.add_zero]

/-- A squashed operand has the sign that it had, and is a zero if it was subnormal. -/
theorem squash_finite (ha : Finite F a) (st : float_status) :
    Finite F (float_squash_input_denormal F a st).1 ∧
      extractFloatSign F (float_squash_input_denormal F a st).1 = extractFloatSign F a ∧
      (st.flush_inputs_to_zero = true → extractFloatExp F (float_squash_input_denormal F a st).1 = 0 →
        extractFloatFrac F (float_squash_input_denormal F a st).1 = 0) := by
  unfold float_squash_input_denormal
  split_ifs with h
  · have hroom : 0 < F.exp_max * 2 ^ F.frac_bits := by cases F <;> decide
    rw [and_sign_bit ha.1]
    obtain ⟨hM, hfinite⟩ := finite_of_sum (extractFloatSign F a) hroom
    obtain ⟨hfrac, -, hsign⟩ := fields_of_sum (extractFloatSign F a) hM
    exact ⟨hfinite, hsign, fun _ _ => by rw [hfrac, Nat.zero_mod]⟩
  · exact ⟨ha, rfl, fun hflush hexp => by
      by_contra hfrac
      exact h ⟨hflush, hexp, hfrac⟩⟩

/-! ## Words that are not finite -/

def IsNaN (F : float_format) (a : ℕ) : Prop := extractFloatExp F a = F.exp_max ∧ extractFloatFrac F a ≠ 0

def IsInfinity (F : float_format) (a : ℕ) : Prop := extractFloatExp F a = F.exp_max ∧ extractFloatFrac F a = 0

instance (a : ℕ) : Decidable (IsNaN F a) := inferInstanceAs (Decidable (_ ∧ _))

theorem word_cases (F : float_format) (ha : a < 2 ^ F.width) : IsNaN F a ∨ IsInfinity F a ∨ Finite F a := by
  by_cases hexp : extractFloatExp F a = F.exp_max
  · by_cases hfrac : extractFloatFrac F a = 0
    · exact Or.inr (Or.inl ⟨hexp, hfrac⟩)
    · exact Or.inl ⟨hexp, hfrac⟩
  · exact Or.inr (Or.inr ⟨ha, hexp⟩)

/-- There is one infinity for each sign. -/
theorem IsInfinity.word (ha : a < 2 ^ F.width) (h : IsInfinity F a) :
    a = packFloat F (extractFloatSign F a) F.exp_max 0 := by
  obtain ⟨hexp, hfrac⟩ := h
  rw [exp_eq] at hexp
  rw [frac_eq] at hfrac
  unfold packFloat extractFloatSign
  rw [Nat.shiftRight_eq_div_pow]
  have hlt : a / 2 ^ (F.width - 1) < 2 := Nat.div_lt_of_lt_mul (by rw [Nat.mul_comm, ← width_split_top]; exact ha)
  have hbit : (a / 2 ^ (F.width - 1) != 0).toNat = a / 2 ^ (F.width - 1) := by
    generalize a / 2 ^ (F.width - 1) = q at hlt
    rcases (by omega : q = 0 ∨ q = 1) with rfl | rfl <;> rfl
  rw [hbit]
  cases F <;> simp only [float_format.frac_bits, float_format.exp_bits, float_format.width,
    float_format.exp_max] at ha hexp hfrac ⊢ <;> omega

/-! ## Subnormal operands -/

/-- `normalizeFloat32Subnormal` and `normalizeFloat64Subnormal`: exponent and significand. -/
def normalizeFloatSubnormal (F : float_format) (aSig : ℕ) : ℤ × ℕ :=
  let shiftCount := countLeadingZeros F.width aSig - F.exp_bits
  (1 - shiftCount, (aSig <<< shiftCount) % 2 ^ F.width)

/-- Exponent and significand, after subnormal operands are normalized. -/
def unpacked (F : float_format) (aExp aSig : ℕ) : ℤ × ℕ :=
  if aExp = 0 then normalizeFloatSubnormal F aSig else (aExp, aSig)

/-- What `unpacked` yields for an operand that is not zero: its leading bit is set after it is or-ed. -/
structure Unpacked (F : float_format) (a : ℕ) (aExp : ℤ) (aSig : ℕ) : Prop where
  low : 2 ^ F.frac_bits ≤ aSig
  high : aSig < 2 ^ F.precision
  exp_low : -64 ≤ aExp
  exp_high : aExp < 2 ^ 11
  magnitude_eq : magnitude F a = aSig * 2 ^ (aExp - 1 + F.emin)

theorem or_lead {s : ℕ} (hs : s < 2 ^ F.frac_bits) : s ||| 2 ^ F.frac_bits = s + 2 ^ F.frac_bits :=
  Nat.or_two_pow_eq_add_of_lt hs

theorem or_lead_of_le {s : ℕ} (hs : 2 ^ F.frac_bits ≤ s) (hs' : s < 2 ^ F.precision) :
    s ||| 2 ^ F.frac_bits = s := by
  obtain ⟨t, rfl⟩ := Nat.exists_eq_add_of_le' hs
  rw [float_format.precision, pow_succ] at hs'
  rw [← or_lead (by omega), Nat.or_assoc, Nat.or_self]

theorem normalize_spec {s : ℕ} (hne : s ≠ 0) (hs : s < 2 ^ F.frac_bits) :
    2 ^ F.frac_bits ≤ (normalizeFloatSubnormal F s).2 ∧ (normalizeFloatSubnormal F s).2 < 2 ^ F.precision ∧
      -64 ≤ (normalizeFloatSubnormal F s).1 ∧ (normalizeFloatSubnormal F s).1 ≤ 1 ∧
      ((normalizeFloatSubnormal F s).2 : ℚ) * 2 ^ ((normalizeFloatSubnormal F s).1 - 1) = s := by
  have hwide : 2 ^ F.frac_bits ≤ 2 ^ F.width := Nat.pow_le_pow_right (by norm_num) (by cases F <;> decide)
  obtain ⟨hz, hlow, hhigh⟩ := countLeadingZeros_spec hne (hs.trans_le hwide)
  -- the leading zeros are more than the exponent has bits
  have hge : F.exp_bits < countLeadingZeros F.width s := by
    by_contra hcon
    have h1 : s * 2 ^ countLeadingZeros F.width s ≤ s * 2 ^ F.exp_bits :=
      Nat.mul_le_mul_left _ (Nat.pow_le_pow_right (by norm_num) (by omega))
    have h2 : s * 2 ^ F.exp_bits < 2 ^ F.frac_bits * 2 ^ F.exp_bits :=
      Nat.mul_lt_mul_of_pos_right hs (by positivity)
    have h3 : 2 ^ F.frac_bits * 2 ^ F.exp_bits = 2 ^ (F.width - 1) := by cases F <;> rfl
    omega
  obtain ⟨d, hd⟩ : ∃ d, countLeadingZeros F.width s = F.exp_bits + d :=
    ⟨countLeadingZeros F.width s - F.exp_bits, by omega⟩
  rw [hd, pow_add, ← mul_assoc, Nat.mul_right_comm] at hlow hhigh
  have hpos : 0 < 2 ^ F.exp_bits := by positivity
  have hlow' : 2 ^ F.frac_bits ≤ s * 2 ^ d := by
    have h3 : 2 ^ (F.width - 1) = 2 ^ F.frac_bits * 2 ^ F.exp_bits := by cases F <;> rfl
    rw [h3] at hlow
    exact Nat.le_of_mul_le_mul_right hlow hpos
  have hhigh' : s * 2 ^ d < 2 ^ F.precision := by
    have h3 : 2 ^ F.width = 2 ^ F.precision * 2 ^ F.exp_bits := by cases F <;> rfl
    rw [h3] at hhigh
    exact Nat.lt_of_mul_lt_mul_right hhigh
  have hprec : 2 ^ F.precision ≤ 2 ^ F.width := Nat.pow_le_pow_right (by norm_num) (by cases F <;> decide)
  have hsub : countLeadingZeros F.width s - F.exp_bits = d := by omega
  have hw : F.width ≤ 64 := by cases F <;> decide
  simp only [normalizeFloatSubnormal, hsub, Nat.shiftLeft_eq]
  rw [Nat.mod_eq_of_lt (hhigh'.trans_le hprec)]
  refine ⟨hlow', hhigh', by omega, by omega, ?_⟩
  rw [show (1 - (d : ℤ) - 1) = -(d : ℤ) by ring, zpow_neg, zpow_natCast]
  push_cast
  field_simp

/-- A finite operand that is not zero, as the operations see it. -/
theorem unpacked_spec (ha : Finite F a) (hne : ¬ (extractFloatExp F a = 0 ∧ extractFloatFrac F a = 0)) :
    Unpacked F a (unpacked F (extractFloatExp F a) (extractFloatFrac F a)).1
      ((unpacked F (extractFloatExp F a) (extractFloatFrac F a)).2 ||| 2 ^ F.frac_bits) := by
  have hfrac := frac_lt (F := F) (a := a)
  have hP : 2 ^ F.precision = 2 * 2 ^ F.frac_bits := by rw [float_format.precision, pow_succ']
  unfold unpacked
  split_ifs with hzero
  · obtain ⟨hlow, hhigh, hexp, hexp', heq⟩ := normalize_spec (fun hs => hne ⟨hzero, hs⟩) hfrac
    rw [or_lead_of_le hlow hhigh]
    refine ⟨hlow, hhigh, hexp, by omega, ?_⟩
    rw [magnitude, significand, scale, if_pos hzero, if_pos hzero, Nat.add_zero, zero_add,
      zpow_add₀ (by norm_num), ← mul_assoc, heq]
  · have hmax : F.exp_max < 2 ^ 11 := by cases F <;> decide
    have hle := exp_le (F := F) (a := a)
    rw [or_lead hfrac]
    dsimp only
    refine ⟨by omega, by omega, by omega, by omega, ?_⟩
    rw [magnitude, significand, scale, if_neg hzero, if_neg hzero]

/-- The words of zeros. -/
theorem magnitude_zero (h : extractFloatExp F a = 0 ∧ extractFloatFrac F a = 0) : magnitude F a = 0 := by
  rw [magnitude, significand, h.2, if_pos h.1]
  simp

theorem magnitude_pos (h : ¬ (extractFloatExp F a = 0 ∧ extractFloatFrac F a = 0)) : 0 < magnitude F a := by
  have hpos : 0 < significand F a := by
    have : 0 < 2 ^ F.frac_bits := by positivity
    rw [significand]
    split_ifs <;> omega
  rw [magnitude]
  positivity

/-! ## The order of magnitudes -/

/-- A magnitude in the smallest unit of its format. -/
def units (F : float_format) (a : ℕ) : ℕ := significand F a * 2 ^ (extractFloatExp F a - 1)

theorem magnitude_units (F : float_format) (a : ℕ) : magnitude F a = units F a * 2 ^ F.emin := by
  rw [magnitude, units, scale, zpow_add₀ (by norm_num), ← mul_assoc]
  congr 1
  split_ifs with h
  · rw [h]
    simp
  · push_cast
    rw [show (extractFloatExp F a : ℤ) - 1 = ((extractFloatExp F a - 1 : ℕ) : ℤ) by omega, zpow_natCast]

theorem fields_split (F : float_format) (a : ℕ) :
    a % 2 ^ (F.width - 1) = extractFloatExp F a * 2 ^ F.frac_bits + extractFloatFrac F a := by
  rw [exp_eq, frac_eq]
  cases F <;> simp only [float_format.frac_bits, float_format.exp_bits, float_format.width] <;> omega

/-- Larger fields are larger magnitudes. -/
theorem units_lt (h : a % 2 ^ (F.width - 1) < b % 2 ^ (F.width - 1)) : units F a < units F b := by
  rw [fields_split, fields_split] at h
  have hfa := frac_lt (F := F) (a := a)
  have hfb := frac_lt (F := F) (a := b)
  unfold units significand
  generalize extractFloatExp F a = ea at *
  generalize extractFloatExp F b = eb at *
  generalize extractFloatFrac F a = fa at *
  generalize extractFloatFrac F b = fb at *
  rcases Nat.lt_trichotomy ea eb with hlt | rfl | hgt
  · rw [if_neg (by omega : eb ≠ 0)]
    by_cases hzero : ea = 0
    · -- a subnormal magnitude is below all normal ones
      rw [if_pos hzero, hzero]
      calc (fa + 0) * 2 ^ (0 - 1) = fa := by simp
        _ < fb + 2 ^ F.frac_bits := by omega
        _ ≤ (fb + 2 ^ F.frac_bits) * 2 ^ (eb - 1) := Nat.le_mul_of_pos_right _ (by positivity)
    · rw [if_neg hzero]
      calc (fa + 2 ^ F.frac_bits) * 2 ^ (ea - 1)
          < (2 * 2 ^ F.frac_bits) * 2 ^ (ea - 1) := Nat.mul_lt_mul_of_pos_right (by omega) (by positivity)
        _ = 2 ^ F.frac_bits * 2 ^ (ea - 1 + 1) := by ring
        _ ≤ (fb + 2 ^ F.frac_bits) * 2 ^ (eb - 1) :=
            Nat.mul_le_mul (by omega) (Nat.pow_le_pow_right (by norm_num) (by omega))
  · exact Nat.mul_lt_mul_of_pos_right (by omega) (by positivity)
  · have : (eb + 1) * 2 ^ F.frac_bits ≤ ea * 2 ^ F.frac_bits := Nat.mul_le_mul_right _ hgt
    rw [Nat.succ_mul] at this
    omega

theorem magnitude_lt (h : a % 2 ^ (F.width - 1) < b % 2 ^ (F.width - 1)) : magnitude F a < magnitude F b := by
  have hunits : (units F a : ℚ) < units F b := by exact_mod_cast units_lt h
  rw [magnitude_units, magnitude_units]
  exact mul_lt_mul_of_pos_right hunits (by positivity)

theorem magnitude_of_zero (h : a % 2 ^ (F.width - 1) = 0) : magnitude F a = 0 := by
  rw [fields_split] at h
  have hpos : 0 < 2 ^ F.frac_bits := by positivity
  have hparts := Nat.add_eq_zero_iff.mp h
  exact magnitude_zero ⟨(Nat.mul_eq_zero.mp hparts.1).resolve_right hpos.ne', hparts.2⟩

theorem magnitude_of_pos (h : 0 < a % 2 ^ (F.width - 1)) : 0 < magnitude F a := by
  have hzero : (0 : ℕ) % 2 ^ (F.width - 1) = 0 := Nat.zero_mod _
  have hlt : magnitude F 0 < magnitude F a := magnitude_lt (by rwa [hzero])
  rwa [magnitude_of_zero hzero] at hlt

/-- The sign and the number determine a word. -/
theorem word_ext (ha : a < 2 ^ F.width) (hb : b < 2 ^ F.width) (hsign : extractFloatSign F a = extractFloatSign F b)
    (hvalue : value F a = value F b) : a = b := by
  have hmag : magnitude F a = magnitude F b := by rw [← abs_value, ← abs_value, hvalue]
  have hlow : a % 2 ^ (F.width - 1) = b % 2 ^ (F.width - 1) := by
    rcases Nat.lt_trichotomy (a % 2 ^ (F.width - 1)) (b % 2 ^ (F.width - 1)) with h | h | h
    · exact absurd hmag (magnitude_lt h).ne
    · exact h
    · exact absurd hmag (magnitude_lt h).ne'
  obtain ⟨M, hM, hMa⟩ := exists_sum ha
  obtain ⟨N, hN, hNb⟩ := exists_sum hb
  rw [hMa, hNb, Nat.mul_add_mod_self_right, Nat.mul_add_mod_self_right, Nat.mod_eq_of_lt hM,
    Nat.mod_eq_of_lt hN] at hlow
  rw [hMa, hNb, hsign, hlow]

/-- There is one result only. -/
theorem Delivered.unique {zSign : Bool} {x : ℚ} {z z' : ℕ × float_status} (h : Delivered F st zSign x z)
    (h' : Delivered F st zSign x z') : z = z' := by
  unfold Delivered at h h'
  split_ifs at h h' with hflush
  · rw [h, h']
  · obtain ⟨r, hr, hz⟩ := h
    obtain ⟨r', hr', hz'⟩ := h'
    obtain rfl := hr.unique (by have := F.precision_ge; omega) hr'
    by_cases hbig : max_finite F < |r|
    · rw [if_pos hbig] at hz hz'
      rw [hz, hz']
    · rw [if_neg hbig] at hz hz'
      obtain ⟨hfinite, hsign, hvalue, hstatus⟩ := hz
      obtain ⟨hfinite', hsign', hvalue', hstatus'⟩ := hz'
      apply Prod.ext
      · exact word_ext hfinite.1 hfinite'.1 (hsign.trans hsign'.symm) (hvalue.trans hvalue'.symm)
      · rw [hstatus, hstatus']

/-! ## Results that need no rounding -/

/-- A finite word is a number of its format. -/
theorem representable_value (F : float_format) (a : ℕ) : Representable F.precision F.emin (value F a) := by
  have hsig : significand F a < 2 ^ F.precision := by
    have := frac_lt (F := F) (a := a)
    rw [float_format.precision, pow_succ, significand]
    split_ifs <;> omega
  have hmag : Representable F.precision F.emin (magnitude F a) := by
    refine ⟨significand F a, scale F a, ?_, ?_, by rw [magnitude]; push_cast; rfl⟩
    · rw [abs_of_nonneg (by positivity)]
      exact_mod_cast hsig
    · rw [scale]
      split_ifs <;> omega
  rw [value, signed]
  split_ifs
  · exact hmag.neg
  · exact hmag

/-- A word is what is delivered for its own value, unless it is to be flushed. -/
theorem delivered_exact (st : float_status) {z : ℕ} (hz : Finite F z)
    (hkept : ¬ (st.flush_to_zero = true ∧ value F z ≠ 0 ∧ |value F z| < min_normal F)) :
    Delivered F st (extractFloatSign F z) (value F z) (z, st) := by
  refine delivered_finite hkept (Rounds.self (representable_value F z)) ?_ hz rfl rfl ?_
  · rw [abs_value]
    exact magnitude_le_max hz
  · simp

/-- A zero. -/
theorem delivered_zero (zSign : Bool) (st : float_status) :
    Delivered F st zSign 0 (packFloat F zSign 0 0, st) := by
  have hroom : 0 * 2 ^ F.frac_bits + 0 < F.exp_max * 2 ^ F.frac_bits := by cases F <;> decide
  have hpack := pack_spec zSign (Or.inr rfl) (Nat.zero_le _) hroom
  simp only [Nat.cast_zero, zero_mul, signed_zero] at hpack
  obtain ⟨hfinite, hsign, hvalue⟩ := hpack
  have h := delivered_exact st hfinite (by simp [hvalue])
  rwa [hsign, hvalue] at h

end Umeq.Fpu
