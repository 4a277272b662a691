import Umeq.Fpu.Arithmetic

/-! # Conversions of floating point to integers

    A word becomes a number with a binary point at a fixed place, which is rounded. What is too
    large becomes the last integer on its side.

    * `Datum.to_integer`: what a conversion makes of what a word stands for.
    * `to_integer_met`: all of them make that of it.
-/

namespace Umeq.Fpu

open Rounding

variable {F : float_format} {st : float_status} {a : ℕ} {zSign : Bool}

/-! ## Rounding of fixed point numbers -/

/-- A value that is stored in a signed variable of `w` bits. -/
def as_int (w : ℕ) (n : ℤ) : ℤ := n.bmod (2 ^ w)

def set_float_exception_flags (flags : BitVec 8) (st : float_status) : float_status :=
  { st with float_exception_flags := flags }

/-- The binary point is above the 7 lowest bits. -/
def roundAndPackInt32 (zSign : Bool) (absZ : ℕ) (st : float_status) : ℤ × float_status :=
  let roundIncrement := match st.float_rounding_mode with
    | .nearest_even | .ties_away => 0x40
    | .to_zero => 0
    | .up => if zSign then 0 else 0x7F
    | .down => if zSign then 0x7F else 0
  let roundBits := absZ &&& 0x7F
  let absZ := ((absZ + roundIncrement) % 2 ^ 64) >>> 7
  let absZ := if roundBits = 0x40 ∧ st.float_rounding_mode = .nearest_even then absZ >>> 1 <<< 1 else absZ
  let z := as_int 32 absZ
  let z := if zSign then as_int 32 (-z) else z
  if absZ >>> 32 ≠ 0 ∨ z ≠ 0 ∧ (decide (z < 0) ^^ zSign) = true then
    (if zSign then -0x80000000 else 0x7FFFFFFF, float_raise float_flag_invalid st)
  else (z, if roundBits ≠ 0 then float_raise float_flag_inexact st else st)

/-- Whether the upper word goes up by one. -/
def upperIncrement (zSign : Bool) (absZ1 : ℕ) (st : float_status) : Bool :=
  match st.float_rounding_mode with
  | .nearest_even | .ties_away => decide (2 ^ 63 ≤ absZ1)
  | .to_zero => false
  | .up => !zSign && decide (absZ1 ≠ 0)
  | .down => zSign && decide (absZ1 ≠ 0)

/-- What `roundAndPackInt64` and `roundAndPackUint64` do first; there is no result when the upper word wraps. -/
def increment64 (zSign : Bool) (absZ0 absZ1 : ℕ) (st : float_status) : Option ℕ :=
  if upperIncrement zSign absZ1 st then
    let absZ0 := (absZ0 + 1) % 2 ^ 64
    if absZ0 = 0 then none
    else if (absZ1 <<< 1) % 2 ^ 64 = 0 ∧ st.float_rounding_mode = .nearest_even then some (absZ0 >>> 1 <<< 1)
    else some absZ0
  else some absZ0

/-- The binary point is between the two words. -/
def roundAndPackInt64 (zSign : Bool) (absZ0 absZ1 : ℕ) (st : float_status) : ℤ × float_status :=
  let overflow := (if zSign then -0x8000000000000000 else 0x7FFFFFFFFFFFFFFF, float_raise float_flag_invalid st)
  match increment64 zSign absZ0 absZ1 st with
  | none => overflow
  | some absZ0 =>
    let z := as_int 64 absZ0
    let z := if zSign then as_int 64 (-z) else z
    if z ≠ 0 ∧ (decide (z < 0) ^^ zSign) = true then overflow
    else (z, if absZ1 ≠ 0 then float_raise float_flag_inexact st else st)

def roundAndPackUint64 (zSign : Bool) (absZ0 absZ1 : ℕ) (st : float_status) : ℤ × float_status :=
  match increment64 zSign absZ0 absZ1 st with
  | none => (0xFFFFFFFFFFFFFFFF, float_raise float_flag_invalid st)
  | some absZ0 =>
    if zSign = true ∧ absZ0 ≠ 0 then (0, float_raise float_flag_invalid st)
    else (absZ0, if absZ1 ≠ 0 then float_raise float_flag_inexact st else st)

/-- A shift of two words to the right by 64 bits and `count` more. -/
def shift64ExtraRightJamming (a0 a1 count : ℕ) : ℕ × ℕ :=
  if count = 0 then (a0, a1)
  else if count < 64 then (a0 >>> count, (a0 <<< (64 - count)) % 2 ^ 64 ||| if a1 ≠ 0 then 1 else 0)
  else if count = 64 then (0, a0 ||| if a1 ≠ 0 then 1 else 0)
  else (0, if a0 ||| a1 ≠ 0 then 1 else 0)

/-! ## The functions -/

/-- `if ( aExp ) aSig |= ...` -/
def leading (F : float_format) (aExp aSig : ℕ) : ℕ := if aExp ≠ 0 then aSig ||| 2 ^ F.frac_bits else aSig

/-- What `float32_to_int32` and `float64_to_int32` do with an operand: its significand is shifted to the left
    and then to the right. -/
def to_int32Squashed (F : float_format) (up top a : ℕ) (st : float_status) : ℤ × float_status :=
  let aSign := extractFloatSign F a
  let aExp := extractFloatExp F a
  let aSign := if aExp = F.exp_max ∧ extractFloatFrac F a ≠ 0 then false else aSign
  let aSig := (leading F aExp (extractFloatFrac F a) <<< up) % 2 ^ 64
  let shiftCount : ℤ := top - aExp
  let aSig := if 0 < shiftCount then shift64RightJamming aSig shiftCount.toNat else aSig
  roundAndPackInt32 aSign aSig st

def float32_to_int32 (a : ℕ) (st : float_status) : ℤ × float_status :=
  let pa := float_squash_input_denormal .float32 a st
  to_int32Squashed .float32 32 0xAF pa.1 pa.2

def float64_to_int32 (a : ℕ) (st : float_status) : ℤ × float_status :=
  let pa := float_squash_input_denormal .float64 a st
  to_int32Squashed .float64 0 0x42C pa.1 pa.2

def float32_to_int64 (a : ℕ) (st : float_status) : ℤ × float_status :=
  let pa := float_squash_input_denormal .float32 a st
  let a := pa.1
  let st := pa.2
  let aSig := extractFloatFrac .float32 a
  let aExp := extractFloatExp .float32 a
  let aSign := extractFloatSign .float32 a
  let shiftCount : ℤ := 0xBE - aExp
  if shiftCount < 0 then
    (if aSign = false ∨ aExp = 0xFF ∧ aSig ≠ 0 then 0x7FFFFFFFFFFFFFFF else -0x8000000000000000,
      float_raise float_flag_invalid st)
  else
    let aSig64 := (leading .float32 aExp aSig <<< 40) % 2 ^ 64
    let z := shift64ExtraRightJamming aSig64 0 shiftCount.toNat
    roundAndPackInt64 aSign z.1 z.2 st

def float64_to_int64 (a : ℕ) (st : float_status) : ℤ × float_status :=
  let pa := float_squash_input_denormal .float64 a st
  let a := pa.1
  let st := pa.2
  let aExp := extractFloatExp .float64 a
  let aSign := extractFloatSign .float64 a
  let aSig := leading .float64 aExp (extractFloatFrac .float64 a)
  let shiftCount : ℤ := 0x433 - aExp
  if shiftCount ≤ 0 then
    if 0x43E < aExp then
      (if aSign = false ∨ aExp = 0x7FF ∧ aSig ≠ 0x0010000000000000 then 0x7FFFFFFFFFFFFFFF else -0x8000000000000000,
        float_raise float_flag_invalid st)
    else roundAndPackInt64 aSign ((aSig <<< (-shiftCount).toNat) % 2 ^ 64) 0 st
  else
    let z := shift64ExtraRightJamming aSig 0 shiftCount.toNat
    roundAndPackInt64 aSign z.1 z.2 st

def float32_to_uint64 (a : ℕ) (st : float_status) : ℤ × float_status :=
  let pa := float_squash_input_denormal .float32 a st
  let a := pa.1
  let st := pa.2
  let aSig := extractFloatFrac .float32 a
  let aExp := extractFloatExp .float32 a
  let aSign := extractFloatSign .float32 a
  if aSign = true ∧ 126 < aExp then
    (if float_is_any_nan .float32 a then 0xFFFFFFFFFFFFFFFF else 0, float_raise float_flag_invalid st)
  else
    let shiftCount : ℤ := 0xBE - aExp
    if shiftCount < 0 then (0xFFFFFFFFFFFFFFFF, float_raise float_flag_invalid st)
    else
      let aSig64 := (leading .float32 aExp aSig <<< 40) % 2 ^ 64
      let z := shift64ExtraRightJamming aSig64 0 shiftCount.toNat
      roundAndPackUint64 aSign z.1 z.2 st

def float64_to_uint64 (a : ℕ) (st : float_status) : ℤ × float_status :=
  let pa := float_squash_input_denormal .float64 a st
  let a := pa.1
  let st := pa.2
  let aExp := extractFloatExp .float64 a
  let aSign := extractFloatSign .float64 a
  if aSign = true ∧ 1022 < aExp then
    (if float_is_any_nan .float64 a then 0xFFFFFFFFFFFFFFFF else 0, float_raise float_flag_invalid st)
  else
    let aSig := leading .float64 aExp (extractFloatFrac .float64 a)
    let shiftCount : ℤ := 0x433 - aExp
    if shiftCount ≤ 0 then
      if 0x43E < aExp then (0xFFFFFFFFFFFFFFFF, float_raise float_flag_invalid st)
      else roundAndPackUint64 aSign ((aSig <<< (-shiftCount).toNat) % 2 ^ 64) 0 st
    else
      let z := shift64ExtraRightJamming aSig 0 shiftCount.toNat
      roundAndPackUint64 aSign z.1 z.2 st

/-- What is wider than 32 bits becomes the last integer of these; no other exception is left. -/
def narrow_uint32 (old_exc_flags : BitVec 8) (v : ℤ × float_status) : ℤ × float_status :=
  if v.1 < 0 then (0, float_raise float_flag_invalid (set_float_exception_flags old_exc_flags v.2))
  else if 0xFFFFFFFF < v.1 then
    (0xFFFFFFFF, float_raise float_flag_invalid (set_float_exception_flags old_exc_flags v.2))
  else v

def float32_to_uint32 (a : ℕ) (st : float_status) : ℤ × float_status :=
  narrow_uint32 st.float_exception_flags (float32_to_int64 a st)

/-- Here the intermediate result is not negative. -/
def float64_to_uint32 (a : ℕ) (st : float_status) : ℤ × float_status :=
  narrow_uint32 st.float_exception_flags (float64_to_uint64 a st)

/-! ## What they make of a word -/

/-- An integer that is out of the range becomes the last one on its side. -/
def clamped (lo hi n : ℤ) (flags : BitVec 8) (st : float_status) : ℤ × float_status :=
  if n < lo then (lo, float_raise float_flag_invalid st)
  else if hi < n then (hi, float_raise float_flag_invalid st)
  else (n, float_raise flags st)

/-- What a word stands for, rounded to an integer between `lo` and `hi`. -/
def Datum.to_integer (lo hi : ℤ) (st : float_status) : Datum → ℤ × float_status
  | .nan => (hi, float_raise float_flag_invalid st)
  | .infinity s => (if s then lo else hi, float_raise float_flag_invalid st)
  | .number _ x =>
    let n := round_integer st.float_rounding_mode x
    clamped lo hi n (if (n : ℚ) = x then 0#8 else float_flag_inexact) st

inductive integer_type where
  | int32 | uint32 | int64 | uint64
  deriving DecidableEq, Repr

def integer_type.lo : integer_type → ℤ
  | .int32 => -2 ^ 31
  | .int64 => -2 ^ 63
  | .uint32 | .uint64 => 0

def integer_type.hi : integer_type → ℤ
  | .int32 => 2 ^ 31 - 1
  | .uint32 => 2 ^ 32 - 1
  | .int64 => 2 ^ 63 - 1
  | .uint64 => 2 ^ 64 - 1

def integer_type.convert (F : float_format) (a : ℕ) (st : float_status) : integer_type → ℤ × float_status
  | .int32 => match F with | .float32 => float32_to_int32 a st | .float64 => float64_to_int32 a st
  | .uint32 => match F with | .float32 => float32_to_uint32 a st | .float64 => float64_to_uint32 a st
  | .int64 => match F with | .float32 => float32_to_int64 a st | .float64 => float64_to_int64 a st
  | .uint64 => match F with | .float32 => float32_to_uint64 a st | .float64 => float64_to_uint64 a st

/-! ## The rounded magnitude -/

/-- A magnitude with a sign. -/
def signed_int (zSign : Bool) (n : ℕ) : ℤ := if zSign then -n else n

/-- To round a number with a sign is to round its magnitude. -/
theorem round_integer_signed {mode : Mode} {n : ℕ} {x : ℚ}
    (h : (n : ℤ) = round_integer (magnitude_mode zSign mode) x) :
    signed_int zSign n = round_integer mode (signed zSign x) := by
  cases zSign with
  | false => exact h
  | true =>
    have hneg := round_integer_neg (magnitude_mode true mode) x
    rw [show (magnitude_mode true mode).opposite = mode from Mode.opposite_opposite mode, ← h] at hneg
    exact hneg.symm

/-- A magnitude that is stored in a signed variable, and negated there: it is out of range just when
    its sign is not the right one. -/
theorem as_int_pack {w : ℕ} (hw : w = 32 ∨ w = 64) {n : ℕ} (hn : n < 2 ^ w) (zSign : Bool) {z : ℤ}
    (hz : z = if zSign then as_int w (-as_int w n) else as_int w n) :
    if -2 ^ (w - 1) ≤ signed_int zSign n ∧ signed_int zSign n ≤ 2 ^ (w - 1) - 1 then
      z = signed_int zSign n ∧ ¬ (z ≠ 0 ∧ (decide (z < 0) ^^ zSign) = true)
    else z ≠ 0 ∧ (decide (z < 0) ^^ zSign) = true := by
  have hsigned : as_int w n = if 2 * n < 2 ^ w then (n : ℤ) else n - 2 ^ w := by
    rcases hw with rfl | rfl <;> simp only [as_int, Int.bmod] <;> split_ifs <;> omega
  have hneg : as_int w (-as_int w n) = if 2 * n ≤ 2 ^ w then -(n : ℤ) else 2 ^ w - n := by
    rw [hsigned]
    rcases hw with rfl | rfl <;> simp only [as_int, Int.bmod] <;> split_ifs <;> omega
  cases zSign with
  | false =>
    rw [if_neg Bool.false_ne_true, hsigned] at hz
    rw [hz]
    simp only [signed_int, Bool.false_eq_true, if_false, Bool.xor_false, decide_eq_true_eq]
    rcases hw with rfl | rfl <;> split_ifs <;> omega
  | true =>
    rw [if_pos rfl, hneg] at hz
    rw [hz]
    simp only [signed_int, if_true, Bool.xor_true, Bool.not_eq_true', decide_eq_false_iff_not]
    rcases hw with rfl | rfl <;> split_ifs <;> omega

theorem clamped_in {lo hi n : ℤ} {flags : BitVec 8} (hlo : lo ≤ n) (hhi : n ≤ hi) :
    clamped lo hi n flags st = (n, float_raise flags st) := by
  rw [clamped, if_neg (by omega), if_neg (by omega)]

theorem clamped_out {lo hi : ℤ} {n : ℕ} {flags : BitVec 8} (hlo : lo ≤ 0) (hhi : 0 ≤ hi)
    (h : signed_int zSign n < lo ∨ hi < signed_int zSign n) :
    clamped lo hi (signed_int zSign n) flags st = (if zSign then lo else hi, float_raise float_flag_invalid st) := by
  unfold clamped
  cases zSign with
  | false =>
    simp only [signed_int, Bool.false_eq_true, if_false] at h ⊢
    rw [if_neg (by omega), if_pos (by omega)]
  | true =>
    simp only [signed_int, if_true] at h ⊢
    rw [if_pos (by omega)]

/-- What is raised for the bits that are dropped. -/
theorem raise_inexact (c : Prop) [Decidable c] :
    float_raise (if c then 0#8 else float_flag_inexact) st = if ¬ c then float_raise float_flag_inexact st else st := by
  by_cases hc : c
  · rw [if_pos hc, if_neg (not_not.mpr hc), raise_zero]
  · rw [if_neg hc, if_pos hc]

/-- The magnitude that is rounded to an integer of 32 bits. -/
theorem roundAndPackInt32_eq (zSign : Bool) {S : ℕ} (hS : S < 2 ^ 63) (st : float_status) :
    roundAndPackInt32 zSign S st = clamped (-2 ^ 31) (2 ^ 31 - 1)
      (signed_int zSign (round_significand (magnitude_mode zSign st.float_rounding_mode) 7 S))
      (if S % 2 ^ 7 = 0 then 0#8 else float_flag_inexact) st := by
  have hincrement : (match st.float_rounding_mode with
      | .nearest_even | .ties_away => 0x40
      | .to_zero => 0
      | .up => if zSign then 0 else 0x7F
      | .down => if zSign then 0x7F else 0) = increment (magnitude_mode zSign st.float_rounding_mode) 7 := by
    unfold magnitude_mode
    cases st.float_rounding_mode <;> cases zSign <;> rfl
  have hinc : increment (magnitude_mode zSign st.float_rounding_mode) 7 < 2 ^ 7 := by
    cases magnitude_mode zSign st.float_rounding_mode <;> decide
  have hround : (if S &&& 0x7F = 0x40 ∧ st.float_rounding_mode = .nearest_even then
        ((S + increment (magnitude_mode zSign st.float_rounding_mode) 7) % 2 ^ 64) >>> 7 >>> 1 <<< 1
      else ((S + increment (magnitude_mode zSign st.float_rounding_mode) 7) % 2 ^ 64) >>> 7)
      = round_significand (magnitude_mode zSign st.float_rounding_mode) 7 S := by
    rw [Nat.mod_eq_of_lt (by omega), show (0x7F : ℕ) = 2 ^ 7 - 1 from rfl, Nat.and_two_pow_sub_one_eq_mod,
      round_significand]
    simp only [Nat.shiftRight_eq_div_pow, Nat.shiftLeft_eq, pow_one, Nat.mul_comm 2]
    exact if_congr (by rw [magnitude_mode_even, and_comm]; norm_num) rfl rfl
  simp only [roundAndPackInt32, hincrement, hround]
  rw [show (0x7F : ℕ) = 2 ^ 7 - 1 from rfl, Nat.and_two_pow_sub_one_eq_mod, Nat.shiftRight_eq_div_pow]
  generalize round_significand (magnitude_mode zSign st.float_rounding_mode) 7 S = n
  generalize hz : (if zSign = true then as_int 32 (-as_int 32 n) else as_int 32 n) = z
  by_cases hbig : n / 2 ^ 32 = 0
  · have hpack := as_int_pack (Or.inl rfl) (show n < 2 ^ 32 by omega) zSign hz.symm
    split_ifs at hpack with hin
    · rw [if_neg fun hc => hc.elim (fun h => h hbig) hpack.2, hpack.1, clamped_in hin.1 hin.2, raise_inexact]
    · rw [if_pos (Or.inr hpack), clamped_out (by norm_num) (by norm_num) (by omega)]
      rfl
  · rw [if_pos (Or.inl hbig), clamped_out (by norm_num) (by norm_num)]
    · rfl
    · cases zSign <;> simp only [signed_int, if_true, Bool.false_eq_true, if_false] <;> omega

theorem pair_div {absZ0 absZ1 : ℕ} (h1 : absZ1 < 2 ^ 64) : pair128 (absZ0, absZ1) / 2 ^ 64 = absZ0 := by
  rw [pair128]
  omega

theorem pair_mod {absZ0 absZ1 : ℕ} (h1 : absZ1 < 2 ^ 64) : pair128 (absZ0, absZ1) % 2 ^ 64 = absZ1 := by
  rw [pair128]
  omega

/-- The carry into the upper word, where the tie does not count. -/
theorem increment_spec (zSign : Bool) {absZ0 absZ1 : ℕ} (h1 : absZ1 < 2 ^ 64) (st : float_status)
    (htie : ¬ (absZ1 = 2 ^ 63 ∧ st.float_rounding_mode = .nearest_even)) :
    round_significand (magnitude_mode zSign st.float_rounding_mode) 64 (pair128 (absZ0, absZ1)) =
      absZ0 + if upperIncrement zSign absZ1 st then 1 else 0 := by
  have haway : round_significand .ties_away 64 (pair128 (absZ0, absZ1)) =
      absZ0 + if decide (2 ^ 63 ≤ absZ1) = true then 1 else 0 := by
    rw [round_significand_away (by norm_num), pair_div h1, pair_mod h1]
    congr 1
    by_cases h : absZ1 < 2 ^ 63
    · rw [if_pos h, if_neg (by rw [decide_eq_true_eq]; omega)]
    · rw [if_neg h, if_pos (by rw [decide_eq_true_eq]; omega)]
  have hup : round_significand .up 64 (pair128 (absZ0, absZ1)) = absZ0 + if decide (absZ1 ≠ 0) = true then 1 else 0 := by
    rw [round_significand_up, pair_div h1, pair_mod h1]
    congr 1
    by_cases h : absZ1 = 0
    · rw [if_pos h, if_neg (by rw [decide_eq_true_eq]; omega)]
    · rw [if_neg h, if_pos (by rw [decide_eq_true_eq]; omega)]
  have hdown : ∀ m, m = .down ∨ m = .to_zero → round_significand m 64 (pair128 (absZ0, absZ1)) = absZ0 + 0 := by
    intro m hm
    rw [round_significand_down hm, pair_div h1, Nat.add_zero]
  unfold upperIncrement magnitude_mode
  cases hmode : st.float_rounding_mode with
  | nearest_even =>
    rw [show (if zSign = true then Mode.opposite .nearest_even else .nearest_even) = .nearest_even by
      cases zSign <;> rfl, round_significand_even (by rw [pair_mod h1]; exact fun h => htie ⟨h, hmode⟩)]
    exact haway
  | ties_away =>
    rw [show (if zSign = true then Mode.opposite .ties_away else .ties_away) = .ties_away by cases zSign <;> rfl]
    exact haway
  | to_zero =>
    rw [show (if zSign = true then Mode.opposite .to_zero else .to_zero) = .to_zero by cases zSign <;> rfl]
    exact hdown _ (Or.inr rfl)
  | up =>
    cases zSign with
    | false => exact hup
    | true => exact hdown _ (Or.inl rfl)
  | down =>
    cases zSign with
    | false => exact hdown _ (Or.inl rfl)
    | true => exact hup

/-- The upper word is rounded, unless it wraps around. -/
theorem increment64_eq (zSign : Bool) {absZ0 absZ1 : ℕ} (h0 : absZ0 < 2 ^ 64) (h1 : absZ1 < 2 ^ 64) (st : float_status) :
    increment64 zSign absZ0 absZ1 st =
      let n := round_significand (magnitude_mode zSign st.float_rounding_mode) 64 (pair128 (absZ0, absZ1))
      if n < 2 ^ 64 then some n else none := by
  have hlow : (absZ1 <<< 1) % 2 ^ 64 = 0 ↔ absZ1 = 0 ∨ absZ1 = 2 ^ 63 := by
    rw [Nat.shiftLeft_eq]
    omega
  unfold increment64
  dsimp only
  by_cases htie : absZ1 = 2 ^ 63 ∧ st.float_rounding_mode = .nearest_even
  · -- the lowest bit is cleared again
    have hinc : upperIncrement zSign absZ1 st = true := by
      rw [upperIncrement, htie.2, htie.1]
      rfl
    rw [htie.2, show magnitude_mode zSign .nearest_even = .nearest_even by cases zSign <;> rfl,
      round_significand_tie (by norm_num) (by rw [pair_mod h1, htie.1]), pair_div h1, if_pos hinc]
    by_cases hwrap : absZ0 + 1 < 2 ^ 64
    · rw [if_neg (by omega), if_pos ⟨hlow.mpr (Or.inr htie.1), rfl⟩, if_pos (by omega), Nat.mod_eq_of_lt hwrap,
        Nat.shiftRight_eq_div_pow, Nat.shiftLeft_eq, pow_one, Nat.mul_comm]
    · rw [if_pos (by omega), if_neg (by omega)]
  · rw [increment_spec zSign h1 st htie]
    by_cases hinc : upperIncrement zSign absZ1 st = true
    · have hne : absZ1 ≠ 0 := by
        rintro rfl
        unfold upperIncrement at hinc
        cases hmode : st.float_rounding_mode <;> simp [hmode] at hinc
      rw [if_pos hinc, if_pos hinc]
      by_cases hwrap : absZ0 + 1 < 2 ^ 64
      · rw [if_neg (by omega), if_neg fun hc => htie ⟨(hlow.mp hc.1).resolve_left hne, hc.2⟩, if_pos hwrap,
          Nat.mod_eq_of_lt hwrap]
      · rw [if_pos (by omega), if_neg hwrap]
    · rw [if_neg hinc, if_neg hinc, Nat.add_zero, if_pos h0]

theorem roundAndPackInt64_eq (zSign : Bool) {absZ0 absZ1 : ℕ} (h0 : absZ0 < 2 ^ 64) (h1 : absZ1 < 2 ^ 64)
    (st : float_status) :
    roundAndPackInt64 zSign absZ0 absZ1 st = clamped (-2 ^ 63) (2 ^ 63 - 1)
      (signed_int zSign (round_significand (magnitude_mode zSign st.float_rounding_mode) 64 (pair128 (absZ0, absZ1))))
      (if absZ1 = 0 then 0#8 else float_flag_inexact) st := by
  unfold roundAndPackInt64
  rw [increment64_eq zSign h0 h1]
  dsimp only
  generalize round_significand (magnitude_mode zSign st.float_rounding_mode) 64 (pair128 (absZ0, absZ1)) = n
  by_cases hbig : n < 2 ^ 64
  · rw [if_pos hbig]
    dsimp only
    generalize hz : (if zSign = true then as_int 64 (-as_int 64 n) else as_int 64 n) = z
    have hpack := as_int_pack (Or.inr rfl) hbig zSign hz.symm
    split_ifs at hpack with hin
    · rw [if_neg hpack.2, hpack.1, clamped_in hin.1 hin.2, raise_inexact]
    · rw [if_pos hpack, clamped_out (by norm_num) (by norm_num) (by omega)]
      rfl
  · rw [if_neg hbig, clamped_out (by norm_num) (by norm_num)]
    · rfl
    · cases zSign <;> simp only [signed_int, if_true, Bool.false_eq_true, if_false] <;> omega

/-- A negative number is above -1 here. -/
theorem roundAndPackUint64_eq (zSign : Bool) {absZ0 absZ1 : ℕ} (h0 : absZ0 < 2 ^ 64) (h1 : absZ1 < 2 ^ 64)
    (hneg : zSign = true → absZ0 = 0) (st : float_status) :
    roundAndPackUint64 zSign absZ0 absZ1 st = clamped 0 (2 ^ 64 - 1)
      (signed_int zSign (round_significand (magnitude_mode zSign st.float_rounding_mode) 64 (pair128 (absZ0, absZ1))))
      (if absZ1 = 0 then 0#8 else float_flag_inexact) st := by
  have hsmall : zSign = true →
      round_significand (magnitude_mode zSign st.float_rounding_mode) 64 (pair128 (absZ0, absZ1)) ≤ 1 := by
    intro hsign
    have hinc := increment_lt_two_pow (g := 64) (by norm_num) (magnitude_mode zSign st.float_rounding_mode)
    rw [round_significand, pair128, hneg hsign]
    split_ifs <;> omega
  unfold roundAndPackUint64
  rw [increment64_eq zSign h0 h1]
  dsimp only
  generalize round_significand (magnitude_mode zSign st.float_rounding_mode) 64 (pair128 (absZ0, absZ1)) = n at *
  cases zSign with
  | false =>
    by_cases hbig : n < 2 ^ 64
    · rw [if_pos hbig]
      dsimp only
      rw [if_neg (by simp), signed_int, if_neg Bool.false_ne_true, clamped_in (by omega) (by omega), raise_inexact]
    · rw [if_neg hbig, clamped_out (by norm_num) (by norm_num)]
      · rfl
      · rw [signed_int, if_neg Bool.false_ne_true]
        omega
  | true =>
    have hn := hsmall rfl
    rw [if_pos (by omega), signed_int, if_pos rfl]
    dsimp only
    rcases (by omega : n = 0 ∨ n = 1) with rfl | rfl
    · rw [if_neg (by simp), clamped_in (by norm_num) (by norm_num), raise_inexact]
      rfl
    · rw [if_pos (by simp), clamped, if_pos (by norm_num)]

/-! ## Fixed point numbers -/

theorem leading_eq (F : float_format) (a : ℕ) :
    leading F (extractFloatExp F a) (extractFloatFrac F a) = significand F a := by
  by_cases h : extractFloatExp F a = 0
  · rw [leading, significand, if_neg (not_not.mpr h), if_pos h, Nat.add_zero]
  · rw [leading, significand, if_pos h, if_neg h]
    exact or_lead frac_lt

/-- Subnormal numbers come out half as large, which does not show in the rounding. -/
theorem fixed_cell (F : float_format) (a : ℕ) {g : ℕ} (hg : 1 ≤ g) :
    SameCell (2 ^ (g - 1)) (significand F a * 2 ^ ((extractFloatExp F a : ℤ) - 1 + F.emin + g))
      (magnitude F a * 2 ^ g) := by
  have hfrac := frac_lt (F := F) (a := a)
  by_cases hexp : extractFloatExp F a = 0
  · have hsig : significand F a = extractFloatFrac F a := by rw [significand, if_pos hexp, Nat.add_zero]
    have hmag : magnitude F a = extractFloatFrac F a * 2 ^ F.emin := by rw [magnitude, scale, hsig, if_pos hexp, zero_add]
    rw [hsig, hmag, hexp]
    rcases Nat.eq_zero_or_pos (extractFloatFrac F a) with hzero | hpos
    · rw [hzero, Nat.cast_zero, zero_mul, zero_mul, zero_mul]
      exact SameCell.refl _ _
    · -- both are below one half
      have hfrac' : (extractFloatFrac F a : ℚ) < 2 ^ F.frac_bits := by exact_mod_cast hfrac
      have hpos' : (0 : ℚ) < extractFloatFrac F a := by exact_mod_cast hpos
      have hsmall : ∀ e : ℤ, e ≤ F.emin → (extractFloatFrac F a : ℚ) * 2 ^ (e + g) < 2 ^ (g - 1) := by
        intro e he
        calc (extractFloatFrac F a : ℚ) * 2 ^ (e + g) < 2 ^ F.frac_bits * 2 ^ (e + g) :=
              mul_lt_mul_of_pos_right hfrac' (by positivity)
          _ = 2 ^ ((F.frac_bits : ℤ) + (e + g)) := by rw [zpow_add₀ (by norm_num) (F.frac_bits : ℤ), zpow_natCast]
          _ ≤ 2 ^ ((g : ℤ) - 1) := zpow_le_zpow_right₀ (by norm_num) (by
              have : (F.frac_bits : ℤ) + F.emin ≤ -1 := by cases F <;> decide
              omega)
          _ = 2 ^ (g - 1) := by rw [← zpow_natCast]; congr 1; omega
      have hdouble := hsmall F.emin (le_refl _)
      have hhalf := hsmall (((0 : ℕ) : ℤ) - 1 + F.emin) (by omega)
      rw [zpow_add₀ (by norm_num), zpow_natCast, ← mul_assoc] at hdouble
      apply sameCell_inside (k := 0)
      · positivity
      · rw [Int.cast_zero, zero_mul]
        positivity
      · rw [Int.cast_zero, zero_add, one_mul]
        exact hhalf
      · rw [Int.cast_zero, zero_mul]
        positivity
      · rw [Int.cast_zero, zero_add, one_mul]
        exact hdouble
  · rw [magnitude, scale, if_neg hexp, zpow_add₀ (by norm_num) _ (g : ℤ), zpow_natCast, ← mul_assoc]
    exact SameCell.refl _ _

/-- A fixed point number that stands for a word is rounded as its value is. -/
theorem to_integer_of_cell {g S : ℕ} (hg : 1 ≤ g) (hcell : SameCell (2 ^ (g - 1)) S (magnitude F a * 2 ^ g))
    (lo hi : ℤ) (s : Bool) (st : float_status) :
    clamped lo hi (signed_int (extractFloatSign F a)
        (round_significand (magnitude_mode (extractFloatSign F a) st.float_rounding_mode) g S))
      (if S % 2 ^ g = 0 then 0#8 else float_flag_inexact) st = (Datum.number s (value F a)).to_integer lo hi st := by
  have hpow : (2 : ℚ) ^ g ≠ 0 := by positivity
  have hround := round_significand_integer hg hcell (magnitude_mode (extractFloatSign F a) st.float_rounding_mode)
  have hexact := round_significand_exact hg hcell (magnitude_mode (extractFloatSign F a) st.float_rounding_mode)
  rw [mul_div_cancel_right₀ _ hpow] at hround hexact
  rw [← hround, Int.cast_natCast] at hexact
  have hvalue : signed_int (extractFloatSign F a)
      (round_significand (magnitude_mode (extractFloatSign F a) st.float_rounding_mode) g S) =
      round_integer st.float_rounding_mode (value F a) := round_integer_signed hround
  rw [Datum.to_integer, ← hvalue]
  congr 1
  apply if_congr _ rfl rfl
  rw [← hexact, value, signed, signed_int]
  cases extractFloatSign F a
  · rw [if_neg Bool.false_ne_true, if_neg Bool.false_ne_true, Int.cast_natCast]
  · rw [if_pos rfl, if_pos rfl, Int.cast_neg, Int.cast_natCast, neg_inj]

/-- Numbers that are out of range. -/
theorem negative_to_integer {lo hi : ℤ} {k : ℕ} (hsign : extractFloatSign F a = true) (hk : k ≤ magnitude F a)
    (hlo : -k < lo) (s : Bool) :
    (Datum.number s (value F a)).to_integer lo hi st = (lo, float_raise float_flag_invalid st) := by
  have hle : round_integer st.float_rounding_mode (value F a) ≤ -(k : ℤ) := by
    apply round_integer_le
    rw [value, hsign, signed, if_pos rfl]
    push_cast
    linarith
  rw [Datum.to_integer, clamped, if_pos (by omega)]

theorem positive_to_integer {lo hi : ℤ} {k : ℕ} (hsign : extractFloatSign F a = false) (hk : k ≤ magnitude F a)
    (hhi : hi < k) (hlo : lo ≤ hi) (s : Bool) :
    (Datum.number s (value F a)).to_integer lo hi st = (hi, float_raise float_flag_invalid st) := by
  have hle : (k : ℤ) ≤ round_integer st.float_rounding_mode (value F a) := by
    apply le_round_integer
    rw [value, hsign, signed, if_neg Bool.false_ne_true]
    exact_mod_cast hk
  rw [Datum.to_integer, clamped, if_neg (by omega), if_pos (by omega)]

/-- Large exponents are large numbers. -/
theorem le_magnitude {e : ℕ} (he : e < extractFloatExp F a) {j : ℕ} (hj : (j : ℤ) ≤ F.frac_bits + e + F.emin) :
    ((2 ^ j : ℕ) : ℚ) ≤ magnitude F a := by
  have hsig : (2 : ℚ) ^ F.frac_bits ≤ significand F a := by
    rw [significand, if_neg (by omega)]
    exact_mod_cast Nat.le_add_left _ _
  calc ((2 ^ j : ℕ) : ℚ) = 2 ^ (j : ℤ) := by rw [zpow_natCast]; push_cast; rfl
    _ ≤ 2 ^ ((F.frac_bits : ℤ) + (e + F.emin)) := zpow_le_zpow_right₀ (by norm_num) (by omega)
    _ = 2 ^ F.frac_bits * 2 ^ (e + F.emin) := by rw [zpow_add₀ (by norm_num), zpow_natCast]
    _ ≤ significand F a * 2 ^ scale F a := by
        apply mul_le_mul hsig _ (by positivity) (by positivity)
        apply zpow_le_zpow_right₀ (by norm_num)
        rw [scale, if_neg (by omega)]
        omega

/-! ## The functions on all words -/

/-- A word whose exponent is too large, whether it is finite or not. -/
theorem large_to_integer {lo hi : ℤ} {e k : ℕ} (ha : a < 2 ^ F.width) (he : e < extractFloatExp F a)
    (hk : (k : ℤ) ≤ F.frac_bits + e + F.emin) (hhi : hi < 2 ^ k) (hlo : -2 ^ k < lo) (hle : lo ≤ hi) :
    (datum F a).to_integer lo hi st =
      (if extractFloatSign F a = false ∨ IsNaN F a then hi else lo, float_raise float_flag_invalid st) := by
  have hmag := le_magnitude he hk
  rcases word_cases F ha with hnan | hinf | hfin
  · rw [hnan.datum, Datum.to_integer, if_pos (Or.inr hnan)]
  · have hnot : ¬ IsNaN F a := fun h => h.2 hinf.2
    rw [hinf.datum, Datum.to_integer]
    cases extractFloatSign F a <;> simp [hnot]
  · have hnot : ¬ IsNaN F a := fun h => hfin.2 h.1
    rw [hfin.datum]
    cases hsign : extractFloatSign F a with
    | false =>
      rw [if_pos (Or.inl rfl)]
      exact positive_to_integer hsign hmag (by push_cast; exact hhi) hle _
    | true =>
      rw [if_neg (by simp [hnot])]
      exact negative_to_integer hsign hmag (by push_cast; exact hlo) _

theorem to_int32_eq {up top : ℕ} (ha : a < 2 ^ F.width) (hup : F.precision + up ≤ 56) (hlow : 40 ≤ F.frac_bits + up)
    (htop : (up : ℤ) - top = F.emin + 6) (hmax : top < F.exp_max) (st : float_status) :
    to_int32Squashed F up top a st = (datum F a).to_integer (-2 ^ 31) (2 ^ 31 - 1) st := by
  have hsig := significand_lt (F := F) (a := a)
  have hA : significand F a * 2 ^ up < 2 ^ 56 := by
    calc significand F a * 2 ^ up < 2 ^ F.precision * 2 ^ up := Nat.mul_lt_mul_of_pos_right hsig (by positivity)
      _ = 2 ^ (F.precision + up) := (pow_add _ _ _).symm
      _ ≤ 2 ^ 56 := Nat.pow_le_pow_right (by norm_num) hup
  have hword : (significand F a <<< up) % 2 ^ 64 = significand F a * 2 ^ up := by
    rw [Nat.shiftLeft_eq, Nat.mod_eq_of_lt (by omega)]
  unfold to_int32Squashed
  dsimp only
  rw [leading_eq, hword]
  generalize hsign : (if extractFloatExp F a = F.exp_max ∧ extractFloatFrac F a ≠ 0 then false
    else extractFloatSign F a) = aSign
  change (if IsNaN F a then false else extractFloatSign F a) = aSign at hsign
  by_cases hexp : top < extractFloatExp F a
  · -- nothing is shifted to the right, and the integer has more than 32 bits
    have hlarge : 2 ^ 40 ≤ significand F a * 2 ^ up := by
      calc 2 ^ 40 ≤ 2 ^ (F.frac_bits + up) := Nat.pow_le_pow_right (by norm_num) hlow
        _ = 2 ^ F.frac_bits * 2 ^ up := pow_add _ _ _
        _ ≤ significand F a * 2 ^ up := Nat.mul_le_mul_right _ (significand_lead (by omega))
    have hshift : ¬ (0 : ℤ) < top - extractFloatExp F a := by omega
    have hround := le_round_significand (S := significand F a * 2 ^ up) (g := 7) (by norm_num)
      (magnitude_mode aSign st.float_rounding_mode)
    have hout : signed_int aSign (round_significand (magnitude_mode aSign st.float_rounding_mode) 7
        (significand F a * 2 ^ up)) < -2 ^ 31 ∨ 2 ^ 31 - 1 < signed_int aSign (round_significand
        (magnitude_mode aSign st.float_rounding_mode) 7 (significand F a * 2 ^ up)) := by
      unfold signed_int
      split_ifs
      · left
        omega
      · right
        omega
    rw [if_neg hshift, roundAndPackInt32_eq _ (by omega), clamped_out (by norm_num) (by norm_num) hout,
      large_to_integer (k := 34) ha hexp (by omega) (by norm_num) (by norm_num) (by norm_num), ← hsign]
    congr 1
    by_cases hnan : IsNaN F a
    · rw [if_pos hnan, if_pos (Or.inr hnan), if_neg Bool.false_ne_true]
    · rw [if_neg hnan]
      cases extractFloatSign F a <;> simp [hnan]
  · have hfin : Finite F a := ⟨ha, by omega⟩
    rw [if_neg fun h => hfin.2 h.1] at hsign
    obtain ⟨n, hn⟩ := Nat.exists_eq_add_of_le (not_lt.mp hexp)
    have hjam : (if (0 : ℤ) < top - extractFloatExp F a then
        shift64RightJamming (significand F a * 2 ^ up) (top - extractFloatExp F a : ℤ).toNat
        else significand F a * 2 ^ up) = jam (significand F a * 2 ^ up) n := by
      split_ifs with h
      · rw [shift64RightJamming, shiftRightJamming_eq (by omega)]
        congr 1
        omega
      · rw [show n = 0 by omega, jam_of_dvd (Nat.mod_one _), pow_zero, Nat.div_one]
    have hcell : SameCell (2 ^ (7 - 1)) (jam (significand F a * 2 ^ up) n) (magnitude F a * 2 ^ 7) := by
      have hfixed := fixed_cell F a (g := 7) (by norm_num)
      rw [show (extractFloatExp F a : ℤ) - 1 + F.emin + (7 : ℕ) = up - n by push_cast; omega,
        zpow_sub₀ (by norm_num), zpow_natCast, zpow_natCast, mul_div_assoc'] at hfixed
      have hjam := (SameCell.refl (2 ^ 0) ((significand F a * 2 ^ up : ℕ) : ℚ)).jam
        (n := n) (i := 6) (by norm_num) (by omega)
      push_cast at hjam
      exact hjam.trans hfixed
    have hsmall : jam (significand F a * 2 ^ up) n < 2 ^ 63 := by
      apply jam_lt _ (by norm_num)
      calc significand F a * 2 ^ up < 2 ^ 63 := by omega
        _ ≤ 2 ^ 63 * 2 ^ n := Nat.le_mul_of_pos_right _ (by positivity)
    rw [hjam, ← hsign, roundAndPackInt32_eq _ hsmall, hfin.datum]
    exact to_integer_of_cell (by norm_num) hcell _ _ _ _

/-! ## Two words -/

/-- Two words that stand for the magnitude of an operand. -/
structure Pair (F : float_format) (a : ℕ) (z : ℕ × ℕ) : Prop where
  upper : z.1 < 2 ^ 64
  lower : z.2 < 2 ^ 64
  cell : SameCell (2 ^ (64 - 1)) (pair128 z) (magnitude F a * 2 ^ 64)

theorem extra_spec {a0 : ℕ} (h0 : a0 < 2 ^ 64) (count : ℕ) :
    (shift64ExtraRightJamming a0 0 count).1 < 2 ^ 64 ∧ (shift64ExtraRightJamming a0 0 count).2 < 2 ^ 64 ∧
      SameCell (2 ^ (64 - 1)) (pair128 (shift64ExtraRightJamming a0 0 count)) (a0 * 2 ^ 64 / 2 ^ count : ℚ) := by
  have hexact : ∀ z : ℕ × ℕ, pair128 z * 2 ^ count = a0 * 2 ^ 64 →
      SameCell (2 ^ (64 - 1)) (pair128 z) (a0 * 2 ^ 64 / 2 ^ count : ℚ) := by
    intro z hz
    have heq : (pair128 z : ℚ) = a0 * 2 ^ 64 / 2 ^ count := by
      rw [eq_div_iff (by positivity)]
      exact_mod_cast hz
    rw [heq]
    exact SameCell.refl _ _
  unfold shift64ExtraRightJamming
  simp only [ne_eq, not_true_eq_false, if_false, Nat.or_zero]
  split_ifs with hzero hlt hword hne
  · refine ⟨h0, by norm_num, hexact _ ?_⟩
    rw [hzero, pair128]
    omega
  · have hpow : 2 ^ 64 = 2 ^ count * 2 ^ (64 - count) := by
      rw [← pow_add]
      congr 1
      omega
    refine ⟨(Nat.shiftRight_le _ _).trans_lt h0, Nat.mod_lt _ (by norm_num), hexact _ ?_⟩
    rw [pair128, Nat.shiftRight_eq_div_pow, Nat.shiftLeft_eq, hpow, Nat.mul_mod_mul_right, ← Nat.mul_assoc,
      ← Nat.add_mul, Nat.mul_comm (a0 / 2 ^ count), Nat.div_add_mod, Nat.mul_assoc, Nat.mul_comm (2 ^ (64 - count))]
  · refine ⟨by norm_num, h0, hexact _ ?_⟩
    rw [hword, pair128]
    omega
  · refine ⟨by norm_num, by norm_num, hexact _ ?_⟩
    rw [hne, pair128]
    omega
  · -- less than one half is left of the operand
    have hpos : (0 : ℚ) < a0 := by exact_mod_cast Nat.pos_of_ne_zero hne
    have hlt : (a0 : ℚ) < 2 ^ 64 := by exact_mod_cast h0
    have hcount : (2 : ℚ) ^ 65 ≤ 2 ^ count := pow_le_pow_right₀ (by norm_num) (by omega)
    refine ⟨by norm_num, by norm_num, ?_⟩
    apply sameCell_inside (k := 0)
    · positivity
    · simp [pair128]
    · simp only [pair128]
      norm_num
    · rw [Int.cast_zero, zero_mul]
      positivity
    · rw [Int.cast_zero, zero_add, one_mul, div_lt_iff₀ (by positivity)]
      calc (a0 : ℚ) * 2 ^ 64 < 2 ^ 64 * 2 ^ 64 := mul_lt_mul_of_pos_right hlt (by positivity)
        _ = 2 ^ (64 - 1) * 2 ^ 65 := by norm_num
        _ ≤ 2 ^ (64 - 1) * 2 ^ count := mul_le_mul_of_nonneg_left hcount (by positivity)

theorem pair_shifted (up : ℕ) {A n : ℕ} (hA : A = significand F a * 2 ^ up) (hlt : A < 2 ^ 64)
    (hn : (extractFloatExp F a : ℤ) - 1 + F.emin = up - n) : Pair F a (shift64ExtraRightJamming A 0 n) := by
  obtain ⟨h0, h1, hcell⟩ := extra_spec hlt n
  refine ⟨h0, h1, ?_⟩
  have hfixed := fixed_cell F a (g := 64) (by norm_num)
  rw [hn, zpow_add₀ (by norm_num), zpow_sub₀ (by norm_num), zpow_natCast, zpow_natCast, zpow_natCast] at hfixed
  have heq : (significand F a : ℚ) * (2 ^ up / 2 ^ n * 2 ^ 64) = A * 2 ^ 64 / 2 ^ n := by
    rw [hA]
    push_cast
    field_simp
  rw [heq] at hfixed
  exact hcell.trans hfixed

/-- Two words for an operand of `float32_to_int64` and `float32_to_uint64`. -/
theorem pair_float32 (hexp : extractFloatExp .float32 a ≤ 0xBE) :
    Pair .float32 a (shift64ExtraRightJamming ((significand .float32 a <<< 40) % 2 ^ 64) 0
      (0xBE - extractFloatExp .float32 a : ℤ).toNat) := by
  have hsig := significand_lt (F := .float32) (a := a)
  rw [show float_format.float32.precision = 24 from rfl] at hsig
  have hword : (significand .float32 a <<< 40) % 2 ^ 64 = significand .float32 a * 2 ^ 40 := by
    rw [Nat.shiftLeft_eq, Nat.mod_eq_of_lt (by omega)]
  rw [hword]
  apply pair_shifted 40 rfl (by omega)
  rw [show float_format.float32.emin = -149 from rfl]
  omega

/-- The same for `float64_to_int64` and `float64_to_uint64`, which shift larger exponents to the left. -/
theorem pair_float64_right (hexp : extractFloatExp .float64 a ≤ 0x433) :
    Pair .float64 a (shift64ExtraRightJamming (significand .float64 a) 0
      (0x433 - extractFloatExp .float64 a : ℤ).toNat) := by
  have hsig := significand_lt (F := .float64) (a := a)
  rw [show float_format.float64.precision = 53 from rfl] at hsig
  apply pair_shifted 0 (by rw [pow_zero, Nat.mul_one]) (by omega)
  rw [show float_format.float64.emin = -1074 from rfl]
  omega

theorem pair_float64_left (hexp : 0x433 ≤ extractFloatExp .float64 a) (hexp' : extractFloatExp .float64 a ≤ 0x43E) :
    Pair .float64 a ((significand .float64 a <<< (-(0x433 - extractFloatExp .float64 a) : ℤ).toNat) % 2 ^ 64, 0) := by
  have hsig := significand_lt (F := .float64) (a := a)
  obtain ⟨k, hk⟩ := Nat.exists_eq_add_of_le hexp
  have hshift : (-(0x433 - extractFloatExp .float64 a) : ℤ).toNat = k := by omega
  have hlt : significand .float64 a * 2 ^ k < 2 ^ 64 := by
    calc significand .float64 a * 2 ^ k < 2 ^ 53 * 2 ^ k := Nat.mul_lt_mul_of_pos_right hsig (by positivity)
      _ = 2 ^ (53 + k) := (pow_add _ _ _).symm
      _ ≤ 2 ^ 64 := Nat.pow_le_pow_right (by norm_num) (by omega)
  rw [hshift, Nat.shiftLeft_eq, Nat.mod_eq_of_lt hlt]
  refine ⟨hlt, by norm_num, ?_⟩
  have hfixed := fixed_cell .float64 a (g := 64) (by norm_num)
  rw [show (extractFloatExp .float64 a : ℤ) - 1 + float_format.float64.emin + (64 : ℕ) = k + (64 : ℕ) by
    rw [show float_format.float64.emin = -1074 from rfl]; push_cast; omega, zpow_add₀ (by norm_num), zpow_natCast,
    zpow_natCast, ← mul_assoc] at hfixed
  rw [pair128]
  push_cast
  rw [add_zero]
  exact hfixed

theorem Pair.int64 {z : ℕ × ℕ} (h : Pair F a z) (s : Bool) (st : float_status) :
    roundAndPackInt64 (extractFloatSign F a) z.1 z.2 st =
      (Datum.number s (value F a)).to_integer (-2 ^ 63) (2 ^ 63 - 1) st := by
  rw [roundAndPackInt64_eq _ h.upper h.lower, ← to_integer_of_cell (by norm_num) h.cell, pair_mod h.lower]

/-- Only numbers above -1 are handed on. -/
theorem Pair.uint64 {z : ℕ × ℕ} (h : Pair F a z) (hsign : extractFloatSign F a = true → magnitude F a < 1) (s : Bool)
    (st : float_status) :
    roundAndPackUint64 (extractFloatSign F a) z.1 z.2 st = (Datum.number s (value F a)).to_integer 0 (2 ^ 64 - 1) st := by
  rw [roundAndPackUint64_eq _ h.upper h.lower, ← to_integer_of_cell (by norm_num) h.cell, pair_mod h.lower]
  intro hs
  have hlt := (h.cell 2).1.mpr (by
    have := hsign hs
    push_cast
    linarith)
  have hlt' : pair128 z < 2 ^ 64 := by
    have : (pair128 z : ℚ) < ((2 ^ 64 : ℕ) : ℚ) := by
      push_cast at hlt ⊢
      linarith
    exact_mod_cast this
  rw [pair128] at hlt'
  omega

/-- A number whose exponent is below the bias is below one. -/
theorem magnitude_lt_one (h : extractFloatExp F a < F.bias) : magnitude F a < 1 := by
  have hsig : (significand F a : ℚ) < 2 ^ F.precision := by exact_mod_cast significand_lt
  calc magnitude F a = significand F a * 2 ^ scale F a := rfl
    _ < 2 ^ F.precision * 2 ^ scale F a := mul_lt_mul_of_pos_right hsig (by positivity)
    _ = 2 ^ ((F.precision : ℤ) + scale F a) := by rw [zpow_add₀ (by norm_num), zpow_natCast]
    _ ≤ 2 ^ (0 : ℤ) := by
        apply zpow_le_zpow_right₀ (by norm_num)
        rw [scale, float_format.emin, float_format.precision]
        have hbias : 4 ≤ F.bias := by cases F <;> decide
        split_ifs <;> omega
    _ = 1 := zpow_zero _

/-! ## All conversions -/

theorem float32_to_int64_eq (ha : a < 2 ^ 32) (st : float_status) :
    float32_to_int64 a st =
      (datum .float32 (float_squash_input_denormal .float32 a st).1).to_integer (-2 ^ 63) (2 ^ 63 - 1)
        (float_squash_input_denormal .float32 a st).2 := by
  have hword := squash_word (F := .float32) ha st
  unfold float32_to_int64
  dsimp only
  generalize (float_squash_input_denormal .float32 a st).2 = st at *
  generalize (float_squash_input_denormal .float32 a _).1 = a at *
  rw [leading_eq]
  by_cases hexp : 0xBE < extractFloatExp .float32 a
  · rw [if_pos (by omega), large_to_integer (k := 64) hword hexp (by decide) (by norm_num) (by norm_num) (by norm_num)]
    rfl
  · rw [if_neg (by omega), (pair_float32 (not_lt.mp hexp)).int64 (extractFloatSign .float32 a)]
    have hfin : Finite .float32 a := ⟨hword, by
      rw [show float_format.float32.exp_max = 255 from rfl]
      omega⟩
    rw [hfin.datum]

theorem float64_to_int64_eq (ha : a < 2 ^ 64) (st : float_status) :
    float64_to_int64 a st =
      (datum .float64 (float_squash_input_denormal .float64 a st).1).to_integer (-2 ^ 63) (2 ^ 63 - 1)
        (float_squash_input_denormal .float64 a st).2 := by
  have hword := squash_word (F := .float64) ha st
  unfold float64_to_int64
  dsimp only
  generalize (float_squash_input_denormal .float64 a st).2 = st at *
  generalize (float_squash_input_denormal .float64 a _).1 = a at *
  rw [leading_eq]
  by_cases hexp : 0x43E < extractFloatExp .float64 a
  · rw [if_pos (by omega), if_pos hexp,
      large_to_integer (k := 64) hword hexp (by decide) (by norm_num) (by norm_num) (by norm_num)]
    -- the leading bit is set already when the fraction is looked at
    have hfrac : significand .float64 a ≠ 0x0010000000000000 ↔ extractFloatFrac .float64 a ≠ 0 := by
      rw [significand, if_neg (by omega), show float_format.float64.frac_bits = 52 from rfl]
      omega
    congr 1
    exact if_congr (or_congr Iff.rfl (and_congr Iff.rfl hfrac)) rfl rfl
  · have hfin : Finite .float64 a := ⟨hword, by
      rw [show float_format.float64.exp_max = 2047 from rfl]
      omega⟩
    rw [hfin.datum]
    by_cases hleft : (0x433 - extractFloatExp .float64 a : ℤ) ≤ 0
    · rw [if_pos hleft, if_neg hexp]
      exact (pair_float64_left (by omega) (not_lt.mp hexp)).int64 _ st
    · rw [if_neg hleft]
      exact (pair_float64_right (by omega)).int64 _ st

theorem negative_nan_or_low {hi : ℤ} {e : ℕ} (ha : a < 2 ^ F.width) (he : e < extractFloatExp F a)
    (hk : (0 : ℤ) ≤ F.frac_bits + e + F.emin) (hsign : extractFloatSign F a = true) :
    (datum F a).to_integer 0 hi st =
      (if float_is_any_nan F a then hi else 0, float_raise float_flag_invalid st) := by
  rcases word_cases F ha with hnan | hinf | hfin
  · rw [hnan.datum, Datum.to_integer, if_pos ((any_nan_iff ha).mpr hnan)]
  · rw [hinf.datum, Datum.to_integer, hsign, if_pos rfl, if_neg fun h => ((any_nan_iff ha).mp h).2 hinf.2]
  · rw [hfin.datum, if_neg fun h => hfin.2 ((any_nan_iff ha).mp h).1]
    exact negative_to_integer hsign (le_magnitude he (j := 0) hk) (by norm_num) _

theorem float32_to_uint64_eq (ha : a < 2 ^ 32) (st : float_status) :
    float32_to_uint64 a st =
      (datum .float32 (float_squash_input_denormal .float32 a st).1).to_integer 0 (2 ^ 64 - 1)
        (float_squash_input_denormal .float32 a st).2 := by
  have hword := squash_word (F := .float32) ha st
  unfold float32_to_uint64
  dsimp only
  generalize (float_squash_input_denormal .float32 a st).2 = st at *
  generalize (float_squash_input_denormal .float32 a _).1 = a at *
  rw [leading_eq]
  by_cases hneg : extractFloatSign .float32 a = true ∧ 126 < extractFloatExp .float32 a
  · rw [if_pos hneg, negative_nan_or_low hword hneg.2 (by decide) hneg.1]
    rfl
  · rw [if_neg hneg]
    by_cases hexp : 0xBE < extractFloatExp .float32 a
    · have hsign : extractFloatSign .float32 a = false := by
        cases hs : extractFloatSign .float32 a
        · rfl
        · exact absurd ⟨hs, by omega⟩ hneg
      rw [if_pos (by omega), large_to_integer (k := 64) hword hexp (by decide) (by norm_num) (by norm_num) (by norm_num),
        if_pos (Or.inl hsign)]
      rfl
    · have hfin : Finite .float32 a := ⟨hword, by
        rw [show float_format.float32.exp_max = 255 from rfl]
        omega⟩
      rw [if_neg (by omega), hfin.datum]
      apply (pair_float32 (not_lt.mp hexp)).uint64
      intro hs
      have hle : extractFloatExp .float32 a ≤ 126 := not_lt.mp fun hlt => hneg ⟨hs, hlt⟩
      exact magnitude_lt_one (by rw [show float_format.float32.bias = 127 from rfl]; omega)

theorem float64_to_uint64_eq (ha : a < 2 ^ 64) (st : float_status) :
    float64_to_uint64 a st =
      (datum .float64 (float_squash_input_denormal .float64 a st).1).to_integer 0 (2 ^ 64 - 1)
        (float_squash_input_denormal .float64 a st).2 := by
  have hword := squash_word (F := .float64) ha st
  unfold float64_to_uint64
  dsimp only
  generalize (float_squash_input_denormal .float64 a st).2 = st at *
  generalize (float_squash_input_denormal .float64 a _).1 = a at *
  rw [leading_eq]
  by_cases hneg : extractFloatSign .float64 a = true ∧ 1022 < extractFloatExp .float64 a
  · rw [if_pos hneg, negative_nan_or_low hword hneg.2 (by decide) hneg.1]
    rfl
  · rw [if_neg hneg]
    by_cases hexp : 0x43E < extractFloatExp .float64 a
    · have hsign : extractFloatSign .float64 a = false := by
        cases hs : extractFloatSign .float64 a
        · rfl
        · exact absurd ⟨hs, by omega⟩ hneg
      rw [if_pos (by omega), if_pos hexp,
        large_to_integer (k := 64) hword hexp (by decide) (by norm_num) (by norm_num) (by norm_num),
        if_pos (Or.inl hsign)]
      rfl
    · have hfin : Finite .float64 a := ⟨hword, by
        rw [show float_format.float64.exp_max = 2047 from rfl]
        omega⟩
      have hone : extractFloatSign .float64 a = true → magnitude .float64 a < 1 := by
        intro hs
        have hle : extractFloatExp .float64 a ≤ 1022 := not_lt.mp fun hlt => hneg ⟨hs, hlt⟩
        exact magnitude_lt_one (by rw [show float_format.float64.bias = 1023 from rfl]; omega)
      rw [hfin.datum]
      by_cases hleft : (0x433 - extractFloatExp .float64 a : ℤ) ≤ 0
      · rw [if_pos hleft, if_neg hexp]
        exact (pair_float64_left (by omega) (not_lt.mp hexp)).uint64 hone _ st
      · rw [if_neg hleft]
        exact (pair_float64_right (by omega)).uint64 hone _ st

/-- An operand that is squashed is a zero from then on. -/
theorem squash_status (ha : a < 2 ^ F.width) (st : float_status) :
    (float_squash_input_denormal F a st).2 = st ∨
      ∃ s, datum F (float_squash_input_denormal F a st).1 = .number s 0 := by
  unfold float_squash_input_denormal
  split_ifs with h
  · have hroom : 0 < F.exp_max * 2 ^ F.frac_bits := by cases F <;> decide
    obtain ⟨hM, hfinite⟩ := finite_of_sum (extractFloatSign F a) hroom
    obtain ⟨hfrac, hexp, hsign⟩ := fields_of_sum (extractFloatSign F a) hM
    refine Or.inr ⟨extractFloatSign F a, ?_⟩
    rw [and_sign_bit ha, hfinite.datum, hsign]
    congr 1
    rw [value_eq_zero, hfrac, hexp, Nat.zero_mod, Nat.zero_div]
    exact ⟨rfl, rfl⟩
  · exact Or.inl rfl

theorem round_integer_zero (m : Mode) : round_integer m 0 = 0 :=
  le_antisymm (round_integer_le m (by norm_num)) (le_round_integer m (by norm_num))

theorem narrow_low {flags : BitVec 8} {v : ℤ} (h : v < 0) :
    narrow_uint32 flags (v, st) = (0, float_raise float_flag_invalid (set_float_exception_flags flags st)) :=
  if_pos h

theorem narrow_high {flags : BitVec 8} {v : ℤ} (h : 2 ^ 32 - 1 < v) :
    narrow_uint32 flags (v, st) = (2 ^ 32 - 1, float_raise float_flag_invalid (set_float_exception_flags flags st)) := by
  have hneg : ¬ v < 0 := by omega
  exact (if_neg hneg).trans (if_pos h)

theorem narrow_in {flags : BitVec 8} {v : ℤ} (h : 0 ≤ v) (h' : v ≤ 2 ^ 32 - 1) :
    narrow_uint32 flags (v, st) = (v, st) :=
  (if_neg (not_lt.mpr h)).trans (if_neg (not_lt.mpr h'))

/-- Through more bits, and then to 32: no other exception is left of the way. -/
theorem narrow_uint32_eq {lo hi : ℤ} (hlo : lo ≤ 0) (hhi : 2 ^ 32 - 1 < hi) {d : Datum} {st' : float_status}
    (h : st' = st ∨ ∃ s, d = .number s 0) :
    narrow_uint32 st.float_exception_flags (d.to_integer lo hi st') = d.to_integer 0 (2 ^ 32 - 1) st' := by
  have hraise : st' = st → ∀ more, float_raise float_flag_invalid
      (set_float_exception_flags st.float_exception_flags (float_raise more st')) = float_raise float_flag_invalid st' := by
    rintro rfl more
    rfl
  -- from below, whether the wider type has the number or not
  have hlow : ∀ v < 0, st' = st → ∀ more, narrow_uint32 st.float_exception_flags (v, float_raise more st') =
      (0, float_raise float_flag_invalid st') := by
    intro v hv hst more
    rw [narrow_low hv, hraise hst]
  have hhigh : ∀ v, 2 ^ 32 - 1 < v → st' = st → ∀ more, narrow_uint32 st.float_exception_flags (v, float_raise more st') =
      (2 ^ 32 - 1, float_raise float_flag_invalid st') := by
    intro v hv hst more
    rw [narrow_high hv, hraise hst]
  have hlast : st' = st → narrow_uint32 st.float_exception_flags (lo, float_raise float_flag_invalid st') =
      (0, float_raise float_flag_invalid st') := by
    intro hst
    rcases lt_or_eq_of_le hlo with hlt | heq
    · exact hlow lo hlt hst _
    · rw [heq, narrow_in (le_refl _) (by norm_num)]
  cases d with
  | nan => exact hhigh hi hhi (h.resolve_right (by simp)) _
  | infinity s =>
    cases s with
    | false => exact hhigh hi hhi (h.resolve_right (by simp)) _
    | true => exact hlast (h.resolve_right (by simp))
  | number s x =>
    simp only [Datum.to_integer]
    by_cases hx : 0 ≤ round_integer st'.float_rounding_mode x ∧ round_integer st'.float_rounding_mode x ≤ 2 ^ 32 - 1
    · rw [clamped_in (by omega) (by omega), clamped_in hx.1 hx.2, narrow_in hx.1 hx.2]
    · have hst : st' = st := by
        apply h.resolve_right
        rintro ⟨s', heq⟩
        simp only [Datum.number.injEq] at heq
        rw [heq.2, round_integer_zero] at hx
        norm_num at hx
      generalize round_integer st'.float_rounding_mode x = n at *
      unfold clamped
      by_cases hneg : n < 0
      · rw [if_pos hneg]
        by_cases hout : n < lo
        · rw [if_pos hout]
          exact hlast hst
        · rw [if_neg hout, if_neg (by omega : ¬ hi < n)]
          exact hlow n hneg hst _
      · rw [if_neg hneg, if_neg (by omega : ¬ n < lo), if_pos (by omega : (2 : ℤ) ^ 32 - 1 < n)]
        by_cases hout : hi < n
        · rw [if_pos hout]
          exact hhigh hi hhi hst _
        · rw [if_neg hout]
          exact hhigh n (by omega) hst _

/-- The conversions, by the type and the format. -/
theorem convert_eq (T : integer_type) (ha : a < 2 ^ F.width) (st : float_status) :
    T.convert F a st = (datum F (float_squash_input_denormal F a st).1).to_integer T.lo T.hi
      (float_squash_input_denormal F a st).2 := by
  have hword : (float_squash_input_denormal F a st).1 < 2 ^ F.width := squash_word ha st
  cases F with
  | float32 =>
    cases T with
    | int32 => exact to_int32_eq hword (by decide) (by decide) (by decide) (by decide) _
    | int64 => exact float32_to_int64_eq ha st
    | uint64 => exact float32_to_uint64_eq ha st
    | uint32 =>
      simp only [integer_type.convert, float32_to_uint32, float32_to_int64_eq ha]
      exact narrow_uint32_eq (by norm_num) (by norm_num) (squash_status (F := .float32) ha st)
  | float64 =>
    cases T with
    | int32 => exact to_int32_eq hword (by decide) (by decide) (by decide) (by decide) _
    | int64 => exact float64_to_int64_eq ha st
    | uint64 => exact float64_to_uint64_eq ha st
    | uint32 =>
      simp only [integer_type.convert, float64_to_uint32, float64_to_uint64_eq ha]
      exact narrow_uint32_eq (le_refl _) (by norm_num) (squash_status (F := .float64) ha st)

/-- Every conversion rounds what a word stands for to an integer, in the mode that is set; what is out of
    range becomes the last integer on its side, and a NaN the largest one. -/
theorem to_integer_met (T : integer_type) (ha : a < 2 ^ F.width) :
    let pa := float_squash_input_denormal F a st
    T.convert F a st = (datum F pa.1).to_integer T.lo T.hi pa.2 :=
  convert_eq T ha st

/-- `-2.5` as an integer of 32 bits. -/
theorem to_integer_met_half :
    integer_type.int32.convert .float32 0xC0200000 initial_status =
      (datum .float32 0xC0200000).to_integer integer_type.int32.lo integer_type.int32.hi initial_status :=
  @to_integer_met .float32 initial_status 0xC0200000 .int32 (by decide)

end Umeq.Fpu
