import Umeq.Fpu.Format

/-! # NaNs of `softfloat-specialize.h`

    The functions that depend on the target, as `TARGET_ARM` has them: which NaN an operation
    delivers when an operand is one, and how NaNs go from one format to the other.

    * `propagateFloatNaN_spec`: the first signaling NaN, else the first quiet one, as a quiet one.
-/

namespace Umeq.Fpu

open Rounding

section nans

variable (F : float_format)

/-- `float32_default_nan` and `float64_default_nan`. -/
def float_default_nan : ℕ := F.exp_max * 2 ^ F.frac_bits + 2 ^ (F.frac_bits - 1)

def float_is_quiet_nan (a : ℕ) : Bool :=
  F.exp_max * 2 ^ (F.frac_bits + 1) + 2 ^ F.frac_bits ≤ (a <<< 1) % 2 ^ F.width

def float_is_signaling_nan (a : ℕ) : Bool :=
  ((a >>> (F.frac_bits - 1)) &&& (2 * F.exp_max + 1)) == 2 * F.exp_max &&
    (a &&& (2 ^ (F.frac_bits - 1) - 1)) != 0

def float_maybe_silence_nan (a : ℕ) : ℕ :=
  if float_is_signaling_nan F a then a ||| 2 ^ (F.frac_bits - 1) else a

/-- Which of two NaNs is delivered: 0 for `a` and 1 for `b`. -/
def pickNaN (aIsQNaN aIsSNaN bIsSNaN : Bool) : ℕ :=
  if aIsSNaN then 0 else if bIsSNaN then 1 else if aIsQNaN then 0 else 1

def propagateFloatNaN (a b : ℕ) (st : float_status) : ℕ × float_status :=
  let aIsSignalingNaN := float_is_signaling_nan F a
  let bIsSignalingNaN := float_is_signaling_nan F b
  let st := if aIsSignalingNaN || bIsSignalingNaN then float_raise float_flag_invalid st else st
  if st.default_nan_mode then (float_default_nan F, st)
  else if pickNaN (float_is_quiet_nan F a) aIsSignalingNaN bIsSignalingNaN ≠ 0 then
    (float_maybe_silence_nan F b, st)
  else (float_maybe_silence_nan F a, st)

end nans

/-! ## Between formats -/

/-- A NaN of any format, its fraction at the upper end of a word. -/
structure commonNaNT where
  sign : Bool
  high : ℕ
  deriving DecidableEq

def floatToCommonNaN (F : float_format) (a : ℕ) (st : float_status) : commonNaNT × float_status :=
  (⟨extractFloatSign F a, (a <<< (64 - F.frac_bits)) % 2 ^ 64⟩,
    if float_is_signaling_nan F a then float_raise float_flag_invalid st else st)

def commonNaNToFloat (F : float_format) (a : commonNaNT) (st : float_status) : ℕ :=
  let mantissa := a.high >>> (64 - F.frac_bits)
  if st.default_nan_mode then float_default_nan F
  else if mantissa ≠ 0 then
    a.sign.toNat <<< (F.width - 1) ||| F.exp_max <<< F.frac_bits ||| mantissa
  else float_default_nan F

/-! ## What they are -/

section fields

variable {F : float_format} {a : ℕ}

/-- The upper bit of a fraction tells the quiet NaNs. -/
theorem quiet_iff (ha : a < 2 ^ F.width) : float_is_quiet_nan F a = true ↔
    extractFloatExp F a = F.exp_max ∧ 2 ^ (F.frac_bits - 1) ≤ extractFloatFrac F a := by
  rw [float_is_quiet_nan, decide_eq_true_iff, frac_eq, exp_eq, Nat.shiftLeft_eq]
  cases F <;> simp only [float_format.frac_bits, float_format.exp_bits, float_format.width,
    float_format.exp_max] at ha ⊢ <;> omega

theorem signaling_iff (ha : a < 2 ^ F.width) : float_is_signaling_nan F a = true ↔
    extractFloatExp F a = F.exp_max ∧ extractFloatFrac F a ≠ 0 ∧
      extractFloatFrac F a < 2 ^ (F.frac_bits - 1) := by
  have hmask : 2 * F.exp_max + 1 = 2 ^ (F.exp_bits + 1) - 1 := by cases F <;> rfl
  rw [float_is_signaling_nan, hmask, Nat.and_two_pow_sub_one_eq_mod, Nat.and_two_pow_sub_one_eq_mod,
    Bool.and_eq_true, beq_iff_eq, bne_iff_ne, frac_eq, exp_eq, Nat.shiftRight_eq_div_pow]
  cases F <;> simp only [float_format.frac_bits, float_format.exp_bits, float_format.width,
    float_format.exp_max] at ha ⊢ <;> omega

theorem any_nan_iff (ha : a < 2 ^ F.width) : float_is_any_nan F a = true ↔
    extractFloatExp F a = F.exp_max ∧ extractFloatFrac F a ≠ 0 := by
  rw [float_is_any_nan, decide_eq_true_iff, frac_eq, exp_eq]
  cases F <;> simp only [float_format.frac_bits, float_format.exp_bits, float_format.width,
    float_format.exp_max] at ha ⊢ <;> omega

/-- A NaN is quiet or signaling, and not both. -/
theorem any_nan_cases (ha : a < 2 ^ F.width) :
    float_is_any_nan F a = (float_is_quiet_nan F a || float_is_signaling_nan F a) ∧
      (float_is_quiet_nan F a && float_is_signaling_nan F a) = false := by
  have hpos : 0 < 2 ^ (F.frac_bits - 1) := by positivity
  have hany := any_nan_iff ha
  have hquiet := quiet_iff ha
  have hsignaling := signaling_iff ha
  constructor
  · rw [Bool.eq_iff_iff, Bool.or_eq_true, hany, hquiet, hsignaling]
    omega
  · rw [Bool.eq_false_iff, Ne, Bool.and_eq_true, hquiet, hsignaling]
    omega

/-- The NaN with the upper bit of its fraction set. -/
def quieted (F : float_format) (a : ℕ) : ℕ := a ||| 2 ^ (F.frac_bits - 1)

/-- A quiet NaN is as it is. -/
theorem quieted_of_quiet (ha : a < 2 ^ F.width) (hquiet : float_is_quiet_nan F a = true) :
    quieted F a = a := by
  have hfrac := ((quiet_iff ha).mp hquiet).2
  rw [frac_eq] at hfrac
  have hbit : a.testBit (F.frac_bits - 1) = true := by
    rw [Nat.testBit_eq_decide_div_mod_eq, decide_eq_true_iff]
    cases F <;> simp only [float_format.frac_bits] at hfrac ⊢ <;> omega
  apply Nat.eq_of_testBit_eq
  intro i
  rw [quieted, Nat.testBit_or, Nat.testBit_two_pow]
  by_cases hi : F.frac_bits - 1 = i
  · rw [← hi, hbit]
    rfl
  · simp [hi]

theorem silence_eq (ha : a < 2 ^ F.width) (hnan : float_is_any_nan F a = true) :
    float_maybe_silence_nan F a = quieted F a := by
  have hcases := (any_nan_cases ha).1
  rw [hnan] at hcases
  unfold float_maybe_silence_nan
  split_ifs with hsignaling
  · rfl
  · rw [Bool.eq_false_iff.mpr hsignaling, Bool.or_false] at hcases
    rw [quieted_of_quiet ha hcases.symm]

end fields

/-! ## Propagation -/

/-- The operand that a NaN is taken from: the first one that is signaling, else the first one that
    is quiet. -/
def nan_operand (F : float_format) (a b : ℕ) : ℕ :=
  if float_is_signaling_nan F a then a
  else if float_is_signaling_nan F b then b
  else if float_is_quiet_nan F a then a
  else b

/-- What an operation delivers when an operand is a NaN. -/
theorem propagateFloatNaN_spec {F : float_format} {a b : ℕ} (ha : a < 2 ^ F.width) (hb : b < 2 ^ F.width)
    (hnan : float_is_any_nan F a = true ∨ float_is_any_nan F b = true) (st : float_status) :
    propagateFloatNaN F a b st =
      (if st.default_nan_mode then float_default_nan F else quieted F (nan_operand F a b),
        float_raise (if float_is_signaling_nan F a = true ∨ float_is_signaling_nan F b = true then
          float_flag_invalid else 0#8) st) := by
  obtain ⟨hacases, haboth⟩ := any_nan_cases ha
  obtain ⟨hbcases, hbboth⟩ := any_nan_cases hb
  have hasilence := silence_eq ha
  have hbsilence := silence_eq hb
  unfold propagateFloatNaN nan_operand pickNaN
  generalize float_maybe_silence_nan F a = sa at *
  generalize float_maybe_silence_nan F b = sb at *
  generalize float_is_signaling_nan F a = as at *
  generalize float_is_signaling_nan F b = bs at *
  generalize float_is_quiet_nan F a = aq at *
  generalize float_is_quiet_nan F b = bq at *
  cases hd : st.default_nan_mode <;> cases as <;> cases bs <;> cases aq <;> cases bq <;> simp_all

end Umeq.Fpu
