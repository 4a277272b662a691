import Umeq.Fpu.Format
import Umeq.Fpu.Macros

/-! # `roundAndPackFloat32` and `roundAndPackFloat64`

    Every operation hands a sign, an exponent and a significand to this function, with some bits
    more than the format has. It rounds them, or delivers what the mode has for numbers that
    are too large or too small.

    * `Delivered`: what an exact number becomes, with the exceptions that are raised for it.
    * `roundAndPack_delivered`: the function delivers what a significand stands for.
-/

namespace Umeq.Fpu

open Rounding

variable {F : float_format} {st : float_status}

/-! ## The function -/

/-- What is added before the lowest bits are dropped, from the mode and the sign. -/
def roundIncrement (F : float_format) (zSign : Bool) (st : float_status) : ℕ :=
  match st.float_rounding_mode with
  | .nearest_even | .ties_away => 2 ^ (F.guard - 1)
  | .to_zero => 0
  | .up => if zSign then 0 else 2 ^ F.guard - 1
  | .down => if zSign then 2 ^ F.guard - 1 else 0

/-- The end of `roundAndPackFloat`, after overflow and underflow. -/
def roundAndPackTail (F : float_format) (zSign : Bool) (zExp : ℤ) (zSig : ℕ) (st : float_status) :
    ℕ × float_status :=
  let roundBits := zSig &&& (2 ^ F.guard - 1)
  let st := if roundBits ≠ 0 then float_raise float_flag_inexact st else st
  let z := ((zSig + roundIncrement F zSign st) % 2 ^ F.width) >>> F.guard
  let z := if roundBits = 2 ^ (F.guard - 1) ∧ st.float_rounding_mode = .nearest_even then z >>> 1 <<< 1 else z
  let zExp := if z = 0 then 0 else zExp
  (packFloat F zSign zExp z, st)

def roundAndPackFloat (F : float_format) (zSign : Bool) (zExp : ℤ) (zSig : ℕ) (st : float_status) :
    ℕ × float_status :=
  let increment := roundIncrement F zSign st
  if (F.exp_max - 2 : ℤ) ≤ zExp % 2 ^ 16 then
    if F.exp_max - 2 < zExp ∨ zExp = F.exp_max - 2 ∧ 2 ^ (F.width - 1) ≤ (zSig + increment) % 2 ^ F.width then
      (packFloat F zSign F.exp_max (if increment = 0 then 2 ^ F.width - 1 else 0),
        float_raise (float_flag_overflow ||| float_flag_inexact) st)
    else if zExp < 0 then
      if st.flush_to_zero then (packFloat F zSign 0 0, float_raise float_flag_output_denormal st)
      else
        let isTiny := st.float_detect_tininess = .float_tininess_before_rounding ∨ zExp < -1 ∨
          (zSig + increment) % 2 ^ F.width < 2 ^ (F.width - 1)
        let zSig := shiftRightJamming F.width zSig (-zExp).toNat
        let roundBits := zSig &&& (2 ^ F.guard - 1)
        let st := if isTiny ∧ roundBits ≠ 0 then float_raise float_flag_underflow st else st
        roundAndPackTail F zSign 0 zSig st
    else roundAndPackTail F zSign zExp zSig st
  else roundAndPackTail F zSign zExp zSig st

/-- The same for a significand that need not have its leading bit. -/
def normalizeRoundAndPackFloat (F : float_format) (zSign : Bool) (zExp : ℤ) (zSig : ℕ) (st : float_status) :
    ℕ × float_status :=
  let shiftCount : ℤ := countLeadingZeros F.width zSig - 1
  roundAndPackFloat F zSign (zExp - shiftCount) ((zSig <<< shiftCount.toNat) % 2 ^ F.width) st

/-! ## What is delivered -/

/-- The smallest normal number. -/
def min_normal (F : float_format) : ℚ := 2 ^ F.frac_bits * 2 ^ F.emin

/-- The largest finite number. -/
def max_finite (F : float_format) : ℚ := (2 ^ F.precision - 1) * 2 ^ ((F.exp_max : ℤ) - 2 + F.emin)

/-- What stands for a number that is too large: infinity in the modes that round away from
    zero, else the largest finite number. -/
def overflowed (F : float_format) (mode : Mode) (zSign : Bool) : ℕ :=
  if mode = .to_zero ∨ mode = .up ∧ zSign = true ∨ mode = .down ∧ zSign = false then
    packFloat F zSign (F.exp_max - 1) (2 ^ F.frac_bits - 1)
  else packFloat F zSign F.exp_max 0

/-- What becomes of an exact number. It is rounded as if there was no largest exponent; a
    number that is too large raises two exceptions, a subnormal one that is not exact as well, and
    when results are flushed a subnormal number is nothing but a zero. -/
def Delivered (F : float_format) (st : float_status) (zSign : Bool) (x : ℚ) (z : ℕ × float_status) : Prop :=
  if st.flush_to_zero = true ∧ x ≠ 0 ∧ |x| < min_normal F then
    z = (packFloat F zSign 0 0, float_raise float_flag_output_denormal st)
  else ∃ r, Rounds F.precision F.emin st.float_rounding_mode x r ∧
    if max_finite F < |r| then
      z = (overflowed F st.float_rounding_mode zSign, float_raise (float_flag_overflow ||| float_flag_inexact) st)
    else Finite F z.1 ∧ extractFloatSign F z.1 = zSign ∧ value F z.1 = r ∧
      z.2 = float_raise ((if |x| < min_normal F ∧ r ≠ x then float_flag_underflow else 0#8) |||
        if r ≠ x then float_flag_inexact else 0#8) st

/-! ## Magnitudes -/

/-- The mode, as it looks to the magnitude of a number. -/
def magnitude_mode (zSign : Bool) (mode : Mode) : Mode := if zSign then mode.opposite else mode

theorem roundIncrement_eq (zSign : Bool) (st : float_status) :
    roundIncrement F zSign st = increment (magnitude_mode zSign st.float_rounding_mode) F.guard := by
  unfold roundIncrement magnitude_mode
  cases st.float_rounding_mode <;> cases zSign <;> rfl

theorem magnitude_mode_even {zSign : Bool} {mode : Mode} :
    magnitude_mode zSign mode = .nearest_even ↔ mode = .nearest_even := by
  cases zSign <;> cases mode <;> simp [magnitude_mode, Mode.opposite]

theorem Mode.opposite_opposite (m : Mode) : m.opposite.opposite = m := by cases m <;> rfl

/-- To round a number with a sign is to round its magnitude. -/
theorem rounds_signed {p : ℕ} {emin : ℤ} {mode : Mode} {zSign : Bool} {x r : ℚ}
    (h : Rounds p emin (magnitude_mode zSign mode) x r) :
    Rounds p emin mode (signed zSign x) (signed zSign r) := by
  cases zSign with
  | false => exact h
  | true =>
    have hneg := h.neg
    rwa [show (magnitude_mode true mode).opposite = mode from Mode.opposite_opposite mode] at hneg

theorem increment_lt (m : Mode) (F : float_format) : increment m F.guard < 2 ^ F.guard :=
  increment_lt_two_pow F.guard_pos m

/-- The bits below the significand, and the significand itself, in the words that are rounded. -/
theorem width_split (F : float_format) : 2 ^ (F.width - 1) = 2 ^ F.precision * 2 ^ F.guard := by
  rw [← pow_add, float_format.precision]
  congr 1
  have := F.guard_eq
  omega

theorem width_split' (F : float_format) : 2 ^ (F.width - 2) = 2 ^ F.frac_bits * 2 ^ F.guard := by
  rw [← pow_add]
  congr 1
  have := F.guard_eq
  omega

theorem width_split_top (F : float_format) : 2 ^ F.width = 2 * 2 ^ (F.width - 1) :=
  two_pow_pred (by cases F <;> decide)

theorem guard_fits (F : float_format) : 2 ^ F.guard ≤ 2 ^ (F.width - 1) :=
  Nat.pow_le_pow_right (by norm_num) (by have := F.guard_eq; omega)

/-- A significand with its leading bit keeps it when it is rounded, and carries at most once. -/
theorem round_significand_bounds {m : Mode} {S : ℕ} (hlt : S < 2 ^ (F.width - 1)) :
    round_significand m F.guard S ≤ 2 ^ F.precision ∧
      (2 ^ F.frac_bits ≤ S / 2 ^ F.guard → 2 ^ F.frac_bits ≤ round_significand m F.guard S) := by
  have hpos : 0 < 2 ^ F.guard := by positivity
  have hinc := increment_lt m F
  have hle : (S + increment m F.guard) / 2 ^ F.guard ≤ 2 ^ F.precision := by
    rw [width_split] at hlt
    exact Nat.lt_succ_iff.mp (Nat.div_lt_of_lt_mul (by rw [Nat.mul_comm, Nat.succ_mul]; omega))
  have hge : S / 2 ^ F.guard ≤ (S + increment m F.guard) / 2 ^ F.guard := Nat.div_le_div_right (by omega)
  have heven : 2 ^ F.frac_bits % 2 = 0 := by cases F <;> rfl
  unfold round_significand
  split_ifs
  · constructor
    · omega
    · intro hlead
      omega
  · exact ⟨hle, fun hlead => hlead.trans hge⟩

/-- The significand carries just when the sum reaches the upper bit. -/
theorem round_significand_carry {m : Mode} {S : ℕ} (hlt : S < 2 ^ (F.width - 1)) :
    2 ^ (F.width - 1) ≤ S + increment m F.guard ↔ round_significand m F.guard S = 2 ^ F.precision := by
  have hpos : 0 < 2 ^ F.guard := by positivity
  have hinc := increment_lt m F
  have hdiv : 2 ^ (F.width - 1) ≤ S + increment m F.guard ↔
      2 ^ F.precision ≤ (S + increment m F.guard) / 2 ^ F.guard := by
    rw [width_split, Nat.le_div_iff_mul_le hpos]
  have hle : (S + increment m F.guard) / 2 ^ F.guard ≤ 2 ^ F.precision := by
    rw [width_split] at hlt
    exact Nat.lt_succ_iff.mp (Nat.div_lt_of_lt_mul (by rw [Nat.mul_comm, Nat.succ_mul]; omega))
  have heven : 2 ^ F.precision % 2 = 0 := by cases F <;> rfl
  rw [hdiv]
  unfold round_significand
  split_ifs <;> omega

theorem packFloat_eq (zSign : Bool) {k n : ℕ} (hM : k * 2 ^ F.frac_bits + n < 2 ^ (F.width - 1)) :
    packFloat F zSign k n = zSign.toNat * 2 ^ (F.width - 1) + (k * 2 ^ F.frac_bits + n) := by
  have htop := width_split_top F
  have hsign : zSign.toNat * 2 ^ (F.width - 1) ≤ 2 ^ (F.width - 1) := by
    cases zSign <;> simp
  unfold packFloat
  have hlt : zSign.toNat * 2 ^ (F.width - 1) + (k * 2 ^ F.frac_bits + n) < 2 ^ F.width := by omega
  have hcast : ((zSign.toNat * 2 ^ (F.width - 1) + k * 2 ^ F.frac_bits + n : ℤ))
      = ((zSign.toNat * 2 ^ (F.width - 1) + (k * 2 ^ F.frac_bits + n) : ℕ) : ℤ) := by
    push_cast
    ring
  rw [hcast]
  have := Int.toNat_natCast ((zSign.toNat * 2 ^ (F.width - 1) + (k * 2 ^ F.frac_bits + n)) % 2 ^ F.width)
  push_cast at this ⊢
  rw [this]
  exact Nat.mod_eq_of_lt hlt

/-- Finite words are the ones below infinity. -/
theorem finite_of_sum (zSign : Bool) {M : ℕ} (hM : M < F.exp_max * 2 ^ F.frac_bits) :
    M < 2 ^ (F.width - 1) ∧ Finite F (zSign.toNat * 2 ^ (F.width - 1) + M) := by
  have hle : F.exp_max * 2 ^ F.frac_bits ≤ 2 ^ (F.width - 1) := by cases F <;> decide
  have hlt : M < 2 ^ (F.width - 1) := hM.trans_le hle
  have htop := width_split_top F
  have hsign : zSign.toNat * 2 ^ (F.width - 1) ≤ 2 ^ (F.width - 1) := by cases zSign <;> simp
  refine ⟨hlt, by omega, ?_⟩
  rw [(fields_of_sum zSign hlt).2.1]
  exact (Nat.div_lt_of_lt_mul (by rwa [Nat.mul_comm])).ne

theorem magnitude_le_max {a : ℕ} (ha : Finite F a) : magnitude F a ≤ max_finite F := by
  have hexp : extractFloatExp F a < F.exp_max := lt_of_le_of_ne exp_le ha.2
  have hmax := F.exp_max_pos
  have hsig : significand F a + 1 ≤ 2 ^ F.precision := by
    have := frac_lt (F := F) (a := a)
    rw [float_format.precision, pow_succ, significand]
    split_ifs <;> omega
  have hscale : scale F a ≤ (F.exp_max : ℤ) - 2 + F.emin := by
    rw [scale]
    split_ifs <;> omega
  have hsig' : (significand F a : ℚ) + 1 ≤ 2 ^ F.precision := by exact_mod_cast hsig
  rw [magnitude, max_finite]
  exact mul_le_mul (by linarith) (zpow_le_zpow_right₀ (by norm_num) hscale) (by positivity)
    (by linarith [(Nat.cast_nonneg (significand F a) : (0 : ℚ) ≤ _)])

/-- A significand that is packed with one less than its exponent stands for its number. -/
theorem pack_spec (zSign : Bool) {k n : ℕ} (hn : 2 ^ F.frac_bits ≤ n ∨ k = 0) (hn' : n ≤ 2 ^ F.precision)
    (hroom : k * 2 ^ F.frac_bits + n < F.exp_max * 2 ^ F.frac_bits) :
    Finite F (packFloat F zSign k n) ∧ extractFloatSign F (packFloat F zSign k n) = zSign ∧
      value F (packFloat F zSign k n) = signed zSign (n * 2 ^ (k + F.emin)) := by
  obtain ⟨hM, hfinite⟩ := finite_of_sum zSign hroom
  have hsign := (fields_of_sum zSign hM).2.2
  have hmag := magnitude_of_sum zSign hn hn' hM
  rw [packFloat_eq zSign hM]
  exact ⟨hfinite, hsign, by rw [value, hsign, hmag]⟩

/-! ## Rounding and packing -/

/-- The end of the function delivers what its significand stands for, in units of its lowest bit. -/
theorem tail_delivered (st : float_status) (zSign : Bool) {k S : ℕ} {Y : ℚ} (hS : S < 2 ^ (F.width - 1))
    (hlead : 2 ^ F.frac_bits ≤ S / 2 ^ F.guard ∨ k = 0) (hcell : SameCell (2 ^ (F.guard - 1)) S Y)
    (hfit : k * 2 ^ F.frac_bits +
      round_significand (magnitude_mode zSign st.float_rounding_mode) F.guard S < F.exp_max * 2 ^ F.frac_bits) :
    ∃ r, Rounds F.precision F.emin st.float_rounding_mode
        (signed zSign (Y / 2 ^ F.guard * 2 ^ (k + F.emin))) r ∧ |r| ≤ max_finite F ∧
      (S &&& (2 ^ F.guard - 1) ≠ 0 ↔ r ≠ signed zSign (Y / 2 ^ F.guard * 2 ^ (k + F.emin))) ∧
      Finite F (roundAndPackTail F zSign k S st).1 ∧
      extractFloatSign F (roundAndPackTail F zSign k S st).1 = zSign ∧
      value F (roundAndPackTail F zSign k S st).1 = r ∧
      (roundAndPackTail F zSign k S st).2 = if S &&& (2 ^ F.guard - 1) ≠ 0 then
        float_raise float_flag_inexact st else st := by
  have hinc := increment_lt (magnitude_mode zSign st.float_rounding_mode) F
  have htop := width_split_top F
  have hguard := guard_fits F
  have hbounds := round_significand_bounds (m := magnitude_mode zSign st.float_rounding_mode) hS
  have hdiv : S / 2 ^ F.guard < 2 ^ F.precision := by
    rw [width_split, Nat.mul_comm] at hS
    exact Nat.div_lt_of_lt_mul hS
  have hstands : Stands F.precision F.emin F.guard S (k + F.emin) Y := by
    refine ⟨F.precision_ge, F.guard_pos, by omega, hdiv, ?_, hcell⟩
    exact hlead.imp id fun hk => by rw [hk]; simp
  have hrounds := rounds_signed (hstands.rounds (magnitude_mode zSign st.float_rounding_mode))
  have hexact := hstands.exact_iff (magnitude_mode zSign st.float_rounding_mode)
  -- the exponent is packed with the rounded significand
  have hword : (roundAndPackTail F zSign k S st).1 =
      packFloat F zSign k (round_significand (magnitude_mode zSign st.float_rounding_mode) F.guard S) := by
    have hz : (if S &&& (2 ^ F.guard - 1) = 2 ^ (F.guard - 1) ∧ st.float_rounding_mode = .nearest_even then
          ((S + roundIncrement F zSign st) % 2 ^ F.width) >>> F.guard >>> 1 <<< 1
        else ((S + roundIncrement F zSign st) % 2 ^ F.width) >>> F.guard)
        = round_significand (magnitude_mode zSign st.float_rounding_mode) F.guard S := by
      rw [roundIncrement_eq, Nat.mod_eq_of_lt (by omega), Nat.and_two_pow_sub_one_eq_mod, round_significand]
      simp only [Nat.shiftRight_eq_div_pow, Nat.shiftLeft_eq, pow_one, Nat.mul_comm 2]
      exact if_congr (by rw [magnitude_mode_even, and_comm]) rfl rfl
    have hmode : (if S &&& (2 ^ F.guard - 1) ≠ 0 then float_raise float_flag_inexact st else st).float_rounding_mode
        = st.float_rounding_mode := by split_ifs <;> rfl
    have hincr : roundIncrement F zSign (if S &&& (2 ^ F.guard - 1) ≠ 0 then
        float_raise float_flag_inexact st else st) = roundIncrement F zSign st := by
      unfold roundIncrement
      rw [hmode]
    simp only [roundAndPackTail, hmode, hincr, hz]
    generalize round_significand (magnitude_mode zSign st.float_rounding_mode) F.guard S = n at *
    have hexp : (if n = 0 then (0 : ℤ) else k) = k := by
      split_ifs with hn
      · rcases hlead with hlead | hk
        · have hpos : 0 < 2 ^ F.frac_bits := by positivity
          have := hbounds.2 hlead
          omega
        · rw [hk, Nat.cast_zero]
      · rfl
    rw [hexp]
  obtain ⟨hfinite, hsign, hvalue⟩ := pack_spec zSign (hlead.imp hbounds.2 id) hbounds.1 hfit
  refine ⟨_, hrounds, ?_, ?_, ?_, ?_, ?_, rfl⟩
  · rw [← hvalue, abs_value]
    exact magnitude_le_max hfinite
  · have hsigned : ∀ u v : ℚ, signed zSign u = signed zSign v ↔ u = v := by
      intro u v
      cases zSign <;> simp [signed]
    rw [Nat.and_two_pow_sub_one_eq_mod, Ne, Ne, not_iff_not, hsigned, hexact]
  · rw [hword]
    exact hfinite
  · rw [hword]
    exact hsign
  · rw [hword, hvalue]

/-- A significand with its leading bit, and what it stands for, in units of its lowest bit. -/
structure Normalized (F : float_format) (S : ℕ) (Y : ℚ) : Prop where
  low : 2 ^ (F.width - 2) ≤ S
  high : S < 2 ^ (F.width - 1)
  cell : SameCell (2 ^ (F.guard - 1)) S Y

theorem Normalized.bounds {S : ℕ} {Y : ℚ} (h : Normalized F S Y) :
    2 ^ F.frac_bits ≤ Y / 2 ^ F.guard ∧ Y / 2 ^ F.guard < 2 ^ F.precision := by
  have htwo : (2 : ℚ) ^ F.guard = 2 * 2 ^ (F.guard - 1) := by exact_mod_cast two_pow_pred F.guard_pos
  rw [le_div_iff₀ (by positivity), div_lt_iff₀ (by positivity), htwo, ← mul_assoc, ← mul_assoc]
  constructor
  · have hlow := (h.cell.mul_le_iff (2 ^ F.frac_bits * 2)).mp (by
      rw [← Nat.cast_ofNat, ← Nat.cast_pow, ← Nat.cast_pow] at *
      have := h.low
      rw [width_split', two_pow_pred F.guard_pos, ← mul_assoc] at this
      exact_mod_cast this)
    exact_mod_cast hlow
  · have hhigh := (h.cell (2 ^ F.precision * 2)).1.mp (by
      have := h.high
      rw [width_split, two_pow_pred F.guard_pos, ← mul_assoc] at this
      exact_mod_cast this)
    exact_mod_cast hhigh

/-- Subnormal numbers are the ones with a negative exponent. -/
theorem Normalized.tiny_iff {S : ℕ} {Y : ℚ} (h : Normalized F S Y) (zExp : ℤ) (zSign : Bool) :
    |signed zSign (Y / 2 ^ F.guard * 2 ^ (zExp + F.emin))| < min_normal F ↔ zExp < 0 := by
  obtain ⟨hlow, hhigh⟩ := h.bounds
  have hpos : (0 : ℚ) < 2 ^ F.frac_bits := by positivity
  rw [abs_signed, abs_of_nonneg (mul_nonneg (hpos.le.trans hlow) (by positivity)), min_normal]
  constructor
  · intro hlt
    by_contra hneg
    have hpow : (2 : ℚ) ^ F.emin ≤ 2 ^ (zExp + F.emin) := zpow_le_zpow_right₀ (by norm_num) (by omega)
    exact absurd hlt (not_lt.mpr (mul_le_mul hlow hpow (by positivity) (hpos.le.trans hlow)))
  · intro hneg
    have hpow : (2 : ℚ) ^ (zExp + F.emin) ≤ 2 ^ (F.emin - 1) := zpow_le_zpow_right₀ (by norm_num) (by omega)
    calc Y / 2 ^ F.guard * 2 ^ (zExp + F.emin) < 2 ^ F.precision * 2 ^ (zExp + F.emin) :=
          mul_lt_mul_of_pos_right hhigh (by positivity)
      _ ≤ 2 ^ F.precision * 2 ^ (F.emin - 1) := mul_le_mul_of_nonneg_left hpow (by positivity)
      _ = 2 ^ F.frac_bits * 2 ^ F.emin := by
          rw [float_format.precision, zpow_sub_one₀ (by norm_num), pow_succ]
          field_simp

theorem Normalized.ne_zero {S : ℕ} {Y : ℚ} (h : Normalized F S Y) (zExp : ℤ) (zSign : Bool) :
    signed zSign (Y / 2 ^ F.guard * 2 ^ (zExp + F.emin)) ≠ 0 := by
  have hpos : (0 : ℚ) < 2 ^ F.frac_bits := by positivity
  rw [Ne, signed_eq_zero]
  exact (mul_pos (hpos.trans_le h.bounds.1) (by positivity)).ne'

/-- What is packed when the number is too large. -/
theorem overflowed_eq (zSign : Bool) (st : float_status) :
    packFloat F zSign F.exp_max (if roundIncrement F zSign st = 0 then 2 ^ F.width - 1 else 0)
      = overflowed F st.float_rounding_mode zSign := by
  unfold roundIncrement overflowed
  cases F <;> cases st.float_rounding_mode <;> cases zSign <;> rfl

/-- A number that is too large is detected from its exponent and its significand. -/
theorem Normalized.overflow {S : ℕ} {Y : ℚ} (h : Normalized F S Y) {zExp : ℤ} {zSign : Bool}
    (hover : F.exp_max - 2 < zExp ∨ zExp = F.exp_max - 2 ∧
      2 ^ (F.width - 1) ≤ S + increment (magnitude_mode zSign st.float_rounding_mode) F.guard) :
    ∃ r, Rounds F.precision F.emin st.float_rounding_mode
      (signed zSign (Y / 2 ^ F.guard * 2 ^ (zExp + F.emin))) r ∧ max_finite F < |r| := by
  have hmax := F.exp_max_pos
  have hlow := h.low
  have hhigh := h.high
  have hdiv : S / 2 ^ F.guard < 2 ^ F.precision := by
    rw [width_split, Nat.mul_comm] at hhigh
    exact Nat.div_lt_of_lt_mul hhigh
  have hlead : 2 ^ F.frac_bits ≤ S / 2 ^ F.guard := by
    rw [width_split'] at hlow
    exact (Nat.le_div_iff_mul_le (by positivity)).mpr hlow
  have hstands : Stands F.precision F.emin F.guard S (zExp + F.emin) Y :=
    ⟨F.precision_ge, F.guard_pos, by omega, hdiv, Or.inl hlead, h.cell⟩
  refine ⟨_, rounds_signed (hstands.rounds _), ?_⟩
  rw [abs_signed, abs_of_nonneg (by positivity), max_finite]
  set n := round_significand (magnitude_mode zSign st.float_rounding_mode) F.guard S with hn
  have hpos : (0 : ℚ) < 2 ^ ((F.exp_max : ℤ) - 2 + F.emin) := by positivity
  have hbig : (2 : ℚ) ^ F.precision * 2 ^ ((F.exp_max : ℤ) - 2 + F.emin) ≤ n * 2 ^ (zExp + F.emin) := by
    rcases hover with hexp | ⟨hexp, hcarry⟩
    · -- the leading bit is enough
      have hge : (2 : ℚ) ^ F.frac_bits ≤ n := by
        exact_mod_cast (round_significand_bounds hhigh).2 hlead
      have hpow : (2 : ℚ) ^ ((F.exp_max : ℤ) - 2 + F.emin + 1) ≤ 2 ^ (zExp + F.emin) :=
        zpow_le_zpow_right₀ (by norm_num) (by omega)
      calc (2 : ℚ) ^ F.precision * 2 ^ ((F.exp_max : ℤ) - 2 + F.emin)
          = 2 ^ F.frac_bits * 2 ^ ((F.exp_max : ℤ) - 2 + F.emin + 1) := by
            rw [float_format.precision, zpow_add_one₀ (by norm_num), pow_succ]
            ring
        _ ≤ n * 2 ^ (zExp + F.emin) := mul_le_mul hge hpow (by positivity) (by positivity)
    · rw [round_significand_carry hhigh, ← hn] at hcarry
      rw [hcarry, hexp]
      push_cast
      exact le_refl _
  refine lt_of_lt_of_le ?_ hbig
  exact mul_lt_mul_of_pos_right (by linarith) hpos

section delivered

variable {zSign : Bool} {x r : ℚ} {z : ℕ × float_status}

theorem delivered_flushed (hflush : st.flush_to_zero = true) (hne : x ≠ 0) (htiny : |x| < min_normal F) :
    Delivered F st zSign x (packFloat F zSign 0 0, float_raise float_flag_output_denormal st) := by
  rw [Delivered, if_pos ⟨hflush, hne, htiny⟩]

theorem delivered_overflow (hkept : ¬ (st.flush_to_zero = true ∧ x ≠ 0 ∧ |x| < min_normal F))
    (hr : Rounds F.precision F.emin st.float_rounding_mode x r) (hbig : max_finite F < |r|) :
    Delivered F st zSign x (overflowed F st.float_rounding_mode zSign,
      float_raise (float_flag_overflow ||| float_flag_inexact) st) := by
  rw [Delivered, if_neg hkept]
  exact ⟨r, hr, by rw [if_pos hbig]⟩

theorem delivered_finite (hkept : ¬ (st.flush_to_zero = true ∧ x ≠ 0 ∧ |x| < min_normal F))
    (hr : Rounds F.precision F.emin st.float_rounding_mode x r) (hle : |r| ≤ max_finite F)
    (hfinite : Finite F z.1) (hsign : extractFloatSign F z.1 = zSign) (hvalue : value F z.1 = r)
    (hstatus : z.2 = float_raise ((if |x| < min_normal F ∧ r ≠ x then float_flag_underflow else 0#8) |||
      if r ≠ x then float_flag_inexact else 0#8) st) : Delivered F st zSign x z := by
  rw [Delivered, if_neg hkept]
  exact ⟨r, hr, by rw [if_neg (not_lt.mpr hle)]; exact ⟨hfinite, hsign, hvalue, hstatus⟩⟩

end delivered

/-- What is shifted down to the smallest exponent. -/
theorem Normalized.subnormal {S : ℕ} {Y : ℚ} (h : Normalized F S Y) {n : ℕ} (hn : 1 ≤ n) :
    jam S n < 2 ^ (F.width - 1) ∧ SameCell (2 ^ (F.guard - 1)) (jam S n) (Y / 2 ^ n) ∧
      Y / 2 ^ n / 2 ^ F.guard * 2 ^ (((0 : ℕ) : ℤ) + F.emin) = Y / 2 ^ F.guard * 2 ^ (-(n : ℤ) + F.emin) := by
  have hS := h.high
  refine ⟨?_, h.cell.jam (by cases F <;> decide) (by omega), ?_⟩
  · have hstep : 2 ^ (F.width - 1) = 2 ^ (F.width - 2) * 2 := by cases F <;> rfl
    have hle : jam S n ≤ 2 ^ (F.width - 2) := by
      apply jam_le
      · calc S ≤ 2 ^ (F.width - 2) * 2 := by omega
          _ ≤ 2 ^ (F.width - 2) * 2 ^ n := Nat.mul_le_mul_left _ (Nat.le_self_pow (by omega) 2)
      · cases F <;> rfl
    have hpos : 0 < 2 ^ (F.width - 2) := by positivity
    omega
  · rw [zpow_add₀ (by norm_num), zpow_add₀ (by norm_num), zpow_neg, zpow_natCast]
    field_simp
    simp

/-- The function delivers what a significand stands for, in units of its lowest bit. -/
theorem roundAndPack_delivered (zSign : Bool) (zExp : ℤ) {S : ℕ} {Y : ℚ} (h : Normalized F S Y)
    (hlow : -2 ^ 15 ≤ zExp) (hhigh : zExp < 2 ^ 15)
    (htiny : st.float_detect_tininess = .float_tininess_before_rounding) :
    Delivered F st zSign (signed zSign (Y / 2 ^ F.guard * 2 ^ (zExp + F.emin)))
      (roundAndPackFloat F zSign zExp S st) := by
  have hinc := increment_lt (magnitude_mode zSign st.float_rounding_mode) F
  have hmax := F.exp_max_pos
  have hmax' : F.exp_max ≤ 2 ^ 11 := by cases F <;> decide
  have htop := width_split_top F
  have hguard := guard_fits F
  have hS := h.high
  have hbounds := round_significand_bounds (m := magnitude_mode zSign st.float_rounding_mode) hS
  have hcarry := round_significand_carry (m := magnitude_mode zSign st.float_rounding_mode) hS
  have hlead : 2 ^ F.frac_bits ≤ S / 2 ^ F.guard := by
    have := h.low
    rw [width_split'] at this
    exact (Nat.le_div_iff_mul_le (by positivity)).mpr this
  have hwrap : (S + increment (magnitude_mode zSign st.float_rounding_mode) F.guard) % 2 ^ F.width
      = S + increment (magnitude_mode zSign st.float_rounding_mode) F.guard := Nat.mod_eq_of_lt (by omega)
  have htiny_iff := h.tiny_iff zExp zSign
  have hne := h.ne_zero zExp zSign
  unfold roundAndPackFloat
  simp only [roundIncrement_eq, hwrap, htiny, true_or, true_and]
  by_cases hover : F.exp_max - 2 < zExp ∨ zExp = F.exp_max - 2 ∧
      2 ^ (F.width - 1) ≤ S + increment (magnitude_mode zSign st.float_rounding_mode) F.guard
  · -- too large
    obtain ⟨r, hr, hbig⟩ := h.overflow hover
    rw [if_pos (by omega), if_pos hover, ← roundIncrement_eq, overflowed_eq]
    exact delivered_overflow (fun hc => by have := htiny_iff.mp hc.2.2; omega) hr hbig
  rcases lt_or_ge zExp 0 with hneg | hnonneg
  · rw [if_pos (by omega), if_neg hover, if_pos hneg]
    by_cases hflush : st.flush_to_zero = true
    · rw [if_pos hflush]
      exact delivered_flushed hflush hne (htiny_iff.mpr hneg)
    · -- too small, and shifted down to the smallest exponent
      rw [if_neg hflush]
      obtain ⟨n, rfl⟩ : ∃ n : ℕ, zExp = -n := ⟨zExp.natAbs, by omega⟩
      rw [neg_neg, Int.toNat_natCast, shiftRightJamming_eq (by omega)]
      obtain ⟨hjam, hcell, hunits⟩ := h.subnormal (n := n) (by omega)
      have hroom : 2 ^ F.precision < F.exp_max * 2 ^ F.frac_bits := by cases F <;> decide
      have hfit : ∀ m, 0 * 2 ^ F.frac_bits + round_significand m F.guard (jam S n)
          < F.exp_max * 2 ^ F.frac_bits := by
        intro m
        have := (round_significand_bounds (m := m) hjam).1
        omega
      by_cases hbits : jam S n &&& (2 ^ F.guard - 1) ≠ 0
      · rw [if_pos hbits]
        obtain ⟨r, hr, hle, hexact, hfin, hsign, hvalue, hstatus⟩ := tail_delivered
          (float_raise float_flag_underflow st) zSign hjam (Or.inr rfl) hcell (hfit _)
        rw [hunits] at hr hexact
        refine delivered_finite (fun hc => hflush hc.1) hr hle hfin hsign hvalue ?_
        rw [Nat.cast_zero] at hstatus
        rw [hstatus, if_pos hbits, if_pos ⟨htiny_iff.mpr hneg, hexact.mp hbits⟩, if_pos (hexact.mp hbits),
          raise_raise]
      · rw [if_neg hbits]
        obtain ⟨r, hr, hle, hexact, hfin, hsign, hvalue, hstatus⟩ := tail_delivered
          st zSign hjam (Or.inr rfl) hcell (hfit _)
        rw [hunits] at hr hexact
        refine delivered_finite (fun hc => hflush hc.1) hr hle hfin hsign hvalue ?_
        rw [Nat.cast_zero] at hstatus
        rw [hstatus, if_neg hbits, if_neg fun hc => hbits (hexact.mpr hc.2),
          if_neg fun hc => hbits (hexact.mpr hc), BitVec.or_self, raise_zero]
  · -- neither
    obtain ⟨k, rfl⟩ : ∃ k : ℕ, zExp = k := ⟨zExp.toNat, by omega⟩
    have hbranch : (if (F.exp_max - 2 : ℤ) ≤ (k : ℤ) % 2 ^ 16 then
        if F.exp_max - 2 < (k : ℤ) ∨ (k : ℤ) = F.exp_max - 2 ∧
            2 ^ (F.width - 1) ≤ S + increment (magnitude_mode zSign st.float_rounding_mode) F.guard then
          (packFloat F zSign F.exp_max (if increment (magnitude_mode zSign st.float_rounding_mode) F.guard = 0
            then 2 ^ F.width - 1 else 0), float_raise (float_flag_overflow ||| float_flag_inexact) st)
        else if (k : ℤ) < 0 then
          if st.flush_to_zero = true then (packFloat F zSign 0 0, float_raise float_flag_output_denormal st)
          else roundAndPackTail F zSign 0 (shiftRightJamming F.width S (-(k : ℤ)).toNat)
            (if shiftRightJamming F.width S (-(k : ℤ)).toNat &&& 2 ^ F.guard - 1 ≠ 0 then
              float_raise float_flag_underflow st else st)
        else roundAndPackTail F zSign k S st
      else roundAndPackTail F zSign k S st) = roundAndPackTail F zSign k S st := by
      have hk : ¬ (k : ℤ) < 0 := by omega
      rw [if_neg hover, if_neg hk, ite_self]
    rw [hbranch]
    have hfit : k * 2 ^ F.frac_bits + round_significand (magnitude_mode zSign st.float_rounding_mode) F.guard S
        < F.exp_max * 2 ^ F.frac_bits := by
      have hP : 2 ^ F.precision = 2 * 2 ^ F.frac_bits := by rw [float_format.precision, pow_succ']
      have hpos : 0 < 2 ^ F.frac_bits := by positivity
      obtain ⟨d, hd⟩ : ∃ d, F.exp_max = k + 2 + d := ⟨F.exp_max - 2 - k, by omega⟩
      rw [hd, Nat.add_mul, Nat.add_mul, Nat.add_assoc]
      rcases Nat.eq_zero_or_pos d with hd0 | hd1
      · have : ¬ round_significand (magnitude_mode zSign st.float_rounding_mode) F.guard S = 2 ^ F.precision :=
          fun hc => hover (Or.inr ⟨by omega, hcarry.mpr hc⟩)
        omega
      · have : 2 ^ F.frac_bits ≤ d * 2 ^ F.frac_bits := Nat.le_mul_of_pos_left _ hd1
        omega
    obtain ⟨r, hr, hle, hexact, hfin, hsign, hvalue, hstatus⟩ := tail_delivered
      st zSign hS (Or.inl hlead) h.cell hfit
    have hnormal : ¬ |signed zSign (Y / 2 ^ F.guard * 2 ^ ((k : ℤ) + F.emin))| < min_normal F :=
      fun hc => by have := htiny_iff.mp hc; omega
    refine delivered_finite (fun hc => hnormal hc.2.2) hr hle hfin hsign hvalue ?_
    by_cases hbits : S &&& (2 ^ F.guard - 1) ≠ 0
    · rw [hstatus, if_pos hbits, if_neg fun hc => hnormal hc.1, if_pos (hexact.mp hbits)]
      rfl
    · rw [hstatus, if_neg hbits, if_neg fun hc => hnormal hc.1, if_neg fun hc => hbits (hexact.mpr hc),
        BitVec.or_self, raise_zero]

end Umeq.Fpu
