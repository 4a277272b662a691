import Umeq.Fpu.Operands

/-! # Conversions between `float32` and `float64`

    * `float32_to_float64_exact`: the wider format has all numbers of the narrow one.
    * `float64_to_float32_delivered`: the way back is rounded.
    * `float32_round_trip`: there and back, nothing is lost, also of NaNs.
-/

namespace Umeq.Fpu

open Rounding

variable {F : float_format} {st : float_status} {a b : ℕ}

/-! ## The functions -/

/-- After the operand is squashed. -/
def float32_widen (a : ℕ) (st : float_status) : ℕ × float_status :=
  let aSig := extractFloatFrac .float32 a
  let aExp := extractFloatExp .float32 a
  let aSign := extractFloatSign .float32 a
  if aExp = 0xFF then
    if aSig ≠ 0 then
      let nan := floatToCommonNaN .float32 a st
      (commonNaNToFloat .float64 nan.1 nan.2, nan.2)
    else (packFloat .float64 aSign 0x7FF 0, st)
  else if aExp = 0 then
    if aSig = 0 then (packFloat .float64 aSign 0 0, st)
    else
      let n := normalizeFloatSubnormal .float32 aSig
      (packFloat .float64 aSign (n.1 - 1 + 0x380) ((n.2 <<< 29) % 2 ^ 64), st)
  else (packFloat .float64 aSign (aExp + 0x380) ((aSig <<< 29) % 2 ^ 64), st)

def float32_to_float64 (a : ℕ) (st : float_status) : ℕ × float_status :=
  let pa := float_squash_input_denormal .float32 a st
  float32_widen pa.1 pa.2

/-- After the operand is squashed. -/
def float64_narrow (a : ℕ) (st : float_status) : ℕ × float_status :=
  let aSig := extractFloatFrac .float64 a
  let aExp := extractFloatExp .float64 a
  let aSign := extractFloatSign .float64 a
  if aExp = 0x7FF then
    if aSig ≠ 0 then
      let nan := floatToCommonNaN .float64 a st
      (commonNaNToFloat .float32 nan.1 nan.2, nan.2)
    else (packFloat .float32 aSign 0xFF 0, st)
  else
    let zSig := shift64RightJamming aSig 22 % 2 ^ 32
    if aExp ≠ 0 ∨ zSig ≠ 0 then roundAndPackFloat .float32 aSign (aExp - 0x381) (zSig ||| 0x40000000) st
    else roundAndPackFloat .float32 aSign aExp zSig st

def float64_to_float32 (a : ℕ) (st : float_status) : ℕ × float_status :=
  let pa := float_squash_input_denormal .float64 a st
  float64_narrow pa.1 pa.2

/-! ## To the wider format -/

/-- An integer bit of the significand counts in the exponent. -/
theorem packFloat_carry (F : float_format) (zSign : Bool) (e : ℤ) (n : ℕ) :
    packFloat F zSign (e + 1) n = packFloat F zSign e (n + 2 ^ F.frac_bits) := by
  unfold packFloat
  congr 2
  push_cast
  ring

/-- The significand and the exponent of a finite number, moved to the wider format. -/
theorem widened (zSign : Bool) {e : ℤ} {A : ℕ} (h : Unpacked .float32 a e A) (he : e < 0xFF) :
    Finite .float64 (packFloat .float64 zSign (e - 1 + 0x380) (A * 2 ^ 29)) ∧
      extractFloatSign .float64 (packFloat .float64 zSign (e - 1 + 0x380) (A * 2 ^ 29)) = zSign ∧
      value .float64 (packFloat .float64 zSign (e - 1 + 0x380) (A * 2 ^ 29)) = signed zSign (magnitude .float32 a) := by
  obtain ⟨hlow, hhigh, hexp, -, hmag⟩ := h
  obtain ⟨k, hk⟩ : ∃ k : ℕ, e - 1 + 0x380 = k := ⟨(e - 1 + 0x380).toNat, by omega⟩
  have hpack := pack_spec (F := .float64) zSign (k := k) (n := A * 2 ^ 29)
  simp only [float_format.frac_bits, float_format.precision, float_format.exp_max] at hlow hhigh hpack
  obtain ⟨hfinite, hsign, hvalue⟩ := hpack (Or.inl (by omega)) (by omega) (by omega)
  rw [hk]
  refine ⟨hfinite, hsign, ?_⟩
  rw [hvalue, hmag]
  have hscale : (k : ℤ) + float_format.float64.emin = (e - 1 + float_format.float32.emin) + (-29) := by
    simp only [float_format.emin, float_format.bias, float_format.frac_bits]
    omega
  rw [hscale, zpow_add₀ (by norm_num)]
  generalize (2 : ℚ) ^ (e - 1 + float_format.float32.emin) = u
  push_cast
  norm_num
  ring_nf

theorem float32_widen_exact (ha : Finite .float32 a) (st : float_status) :
    (float32_widen a st).2 = st ∧ Finite .float64 (float32_widen a st).1 ∧
      extractFloatSign .float64 (float32_widen a st).1 = extractFloatSign .float32 a ∧
      value .float64 (float32_widen a st).1 = value .float32 a := by
  have hfrac := frac_lt (F := .float32) (a := a)
  have hexp := exp_le (F := .float32) (a := a)
  have hne := ha.2
  simp only [float_format.frac_bits, float_format.exp_max] at hfrac hexp hne
  unfold float32_widen
  dsimp only
  rw [if_neg hne]
  by_cases hzero : extractFloatExp .float32 a = 0 ∧ extractFloatFrac .float32 a = 0
  · rw [if_pos hzero.1, if_pos hzero.2]
    have hpack := pack_spec (F := .float64) (extractFloatSign .float32 a) (k := 0) (n := 0) (Or.inr rfl)
      (Nat.zero_le _) (by decide)
    simp only [Nat.cast_zero, zero_mul, signed_zero] at hpack
    refine ⟨rfl, hpack.1, hpack.2.1, ?_⟩
    rw [hpack.2.2, value, magnitude_zero hzero, signed_zero]
  · have hspec := unpacked_spec ha hzero
    unfold unpacked at hspec
    by_cases hsub : extractFloatExp .float32 a = 0
    · -- a subnormal number becomes a normal one
      have hsig : ¬ extractFloatFrac .float32 a = 0 := fun h => hzero ⟨hsub, h⟩
      obtain ⟨hlow, hhigh, -, hle, -⟩ := normalize_spec (F := .float32) hsig hfrac
      rw [if_pos hsub] at hspec
      rw [or_lead_of_le hlow hhigh] at hspec
      rw [if_pos hsub, if_neg hsig]
      generalize normalizeFloatSubnormal .float32 (extractFloatFrac .float32 a) = n at *
      simp only [float_format.precision, float_format.frac_bits] at hhigh
      rw [Nat.shiftLeft_eq, Nat.mod_eq_of_lt (by omega)]
      exact ⟨rfl, widened _ hspec (by omega)⟩
    · rw [if_neg hsub] at hspec ⊢
      dsimp only at hspec
      rw [or_lead hfrac] at hspec
      have hword : packFloat .float64 (extractFloatSign .float32 a) ((extractFloatExp .float32 a : ℤ) + 0x380)
          ((extractFloatFrac .float32 a <<< 29) % 2 ^ 64) = packFloat .float64 (extractFloatSign .float32 a)
          ((extractFloatExp .float32 a : ℤ) - 1 + 0x380)
          ((extractFloatFrac .float32 a + 2 ^ float_format.float32.frac_bits) * 2 ^ 29) := by
        have hcarry := packFloat_carry .float64 (extractFloatSign .float32 a)
          ((extractFloatExp .float32 a : ℤ) - 1 + 0x380) (extractFloatFrac .float32 a * 2 ^ 29)
        rw [show (extractFloatExp .float32 a : ℤ) - 1 + 0x380 + 1 = extractFloatExp .float32 a + 0x380 by ring]
          at hcarry
        rw [Nat.shiftLeft_eq, Nat.mod_eq_of_lt (by omega), Nat.add_mul]
        exact hcarry
      rw [hword]
      exact ⟨rfl, widened _ hspec (by omega)⟩

/-! ## To the narrower format -/

/-- Below half the smallest number, all numbers have the same result. -/
theorem Delivered.tiny {zSign : Bool} {x y : ℚ} {z : ℕ × float_status} (h : Delivered F st zSign (signed zSign x) z)
    (hx : 0 < x) (hx' : 2 * x < 2 ^ F.emin) (hy : 0 < y) (hy' : 2 * y < 2 ^ F.emin) :
    Delivered F st zSign (signed zSign y) z := by
  have hprec := F.precision_ge
  have hpos : (0 : ℚ) < 2 ^ F.emin := by positivity
  have hmin : (2 : ℚ) ^ F.emin ≤ min_normal F := by
    rw [min_normal]
    exact le_mul_of_one_le_left hpos.le (one_le_pow₀ (by norm_num))
  -- such a number is never exact
  have hinexact : ∀ {u r : ℚ} {m : Mode}, 0 < u → 2 * u < 2 ^ F.emin →
      Rounds F.precision F.emin m (signed zSign u) r → r ≠ signed zSign u := by
    intro u r m hu hu' hr heq
    have hrep := hr.representable
    rw [heq] at hrep
    have hrep' : Representable F.precision F.emin u := by
      cases zSign
      · exact hrep
      · exact representable_neg.mp hrep
    have := hrep'.ge (by omega) hu
    linarith
  have hsmall : ∀ {u : ℚ}, 0 < u → 2 * u < 2 ^ F.emin → signed zSign u ≠ 0 ∧ |signed zSign u| < min_normal F := by
    intro u hu hu'
    rw [abs_signed, abs_of_pos hu, Ne, signed_eq_zero]
    exact ⟨hu.ne', by linarith⟩
  unfold Delivered at h ⊢
  by_cases hflush : st.flush_to_zero = true
  · rw [if_pos ⟨hflush, hsmall hx hx'⟩] at h
    rw [if_pos ⟨hflush, hsmall hy hy'⟩]
    exact h
  · rw [if_neg fun hc => hflush hc.1] at h ⊢
    obtain ⟨r, hr, hz⟩ := h
    have hr' : Rounds F.precision F.emin st.float_rounding_mode (signed zSign y) r := by
      cases zSign
      · exact hr.tiny hprec hx hx' hy hy'
      · have hneg := hr.neg
        rw [show -signed true x = x by simp [signed]] at hneg
        have htiny := (hneg.tiny hprec hx hx' hy hy').neg
        rwa [neg_neg, Mode.opposite_opposite] at htiny
    refine ⟨r, hr', ?_⟩
    simp only [ne_eq, hinexact hx hx' hr, hinexact hy hy' hr', (hsmall hx hx').2, (hsmall hy hy').2] at hz ⊢
    exact hz

theorem roundAndPack_zero (F : float_format) (zSign : Bool) (st : float_status) :
    roundAndPackFloat F zSign 0 0 st = (packFloat F zSign 0 0, st) := by
  have hmax := F.exp_max_pos
  have hinc := increment_lt (magnitude_mode zSign st.float_rounding_mode) F
  have hwide : 2 ^ F.guard ≤ 2 ^ F.width := Nat.pow_le_pow_right (by norm_num) (by cases F <;> decide)
  have hhalf : (0 : ℕ) ≠ 2 ^ (F.guard - 1) := (by positivity : 0 < 2 ^ (F.guard - 1)).ne
  unfold roundAndPackFloat roundAndPackTail
  dsimp only
  rw [if_neg (by omega)]
  simp only [Nat.zero_and, ne_eq, not_true_eq_false, if_false, hhalf, false_and, Nat.zero_add]
  rw [roundIncrement_eq, Nat.mod_eq_of_lt (by omega), Nat.shiftRight_eq_div_pow, Nat.div_eq_of_lt hinc]
  rfl

theorem float64_narrow_delivered (ha : Finite .float64 a)
    (htiny : st.float_detect_tininess = .float_tininess_before_rounding) :
    Delivered .float32 st (extractFloatSign .float64 a) (value .float64 a) (float64_narrow a st) := by
  have hfrac := frac_lt (F := .float64) (a := a)
  have hexp := exp_le (F := .float64) (a := a)
  have hne := ha.2
  simp only [float_format.frac_bits, float_format.exp_max] at hfrac hexp hne
  unfold float64_narrow
  dsimp only
  rw [if_neg hne]
  have hlt : jam (extractFloatFrac .float64 a) 22 < 2 ^ 30 := jam_lt (by omega) (by norm_num)
  rw [shift64RightJamming, shiftRightJamming_eq (by omega), Nat.mod_eq_of_lt (by omega)]
  by_cases hzero : extractFloatExp .float64 a = 0 ∧ extractFloatFrac .float64 a = 0
  · rw [hzero.1, hzero.2, value, magnitude_zero hzero, signed_zero, if_neg (by decide), jam_of_dvd rfl]
    exact roundAndPack_zero .float32 _ st ▸ delivered_zero _ _
  · have hsome : extractFloatExp .float64 a ≠ 0 ∨ jam (extractFloatFrac .float64 a) 22 ≠ 0 := by
      by_contra hcon
      obtain ⟨h, h'⟩ := not_or.mp hcon
      exact hzero ⟨not_not.mp h, jam_eq_zero (not_not.mp h')⟩
    have hor : jam (extractFloatFrac .float64 a) 22 ||| 0x40000000 = jam (extractFloatFrac .float64 a + 2 ^ 52) 22 := by
      have hadd := jam_add (extractFloatFrac .float64 a) 22 (m := 2 ^ 30) (by norm_num)
      rw [show (2 : ℕ) ^ 30 * 2 ^ 22 = 2 ^ 52 by norm_num] at hadd
      rw [show (0x40000000 : ℕ) = 2 ^ 30 by norm_num, Nat.or_two_pow_eq_add_of_lt hlt, ← hadd]
    have hcell : SameCell (2 ^ 6) (jam (extractFloatFrac .float64 a + 2 ^ 52) 22)
        (((extractFloatFrac .float64 a + 2 ^ 52 : ℕ) : ℚ) / 2 ^ 22) :=
      SameCell.pow_le (i := 1) (by rw [pow_one]; exact sameCell_jam _ 22) (by norm_num)
    have hnorm : Normalized .float32 (jam (extractFloatFrac .float64 a + 2 ^ 52) 22)
        (((extractFloatFrac .float64 a + 2 ^ 52 : ℕ) : ℚ) / 2 ^ 22) := by
      refine ⟨?_, ?_, hcell⟩
      · exact le_jam (m := 2 ^ 30) (by omega) (by norm_num)
      · exact jam_lt (m := 2 ^ 31) (by omega) (by norm_num)
    have hdelivered := roundAndPack_delivered (extractFloatSign .float64 a) (extractFloatExp .float64 a - 0x381 : ℤ)
      hnorm (by omega) (by omega) htiny
    rw [if_pos hsome, hor]
    -- in the units of the wider format
    have hscale : ∀ n : ℕ, (n : ℚ) / 2 ^ 22 / 2 ^ float_format.float32.guard *
        2 ^ ((extractFloatExp .float64 a : ℤ) - 0x381 + float_format.float32.emin)
        = n * 2 ^ ((extractFloatExp .float64 a : ℤ) - 1 + float_format.float64.emin) := by
      intro n
      have hexps : (extractFloatExp .float64 a : ℤ) - 0x381 + float_format.float32.emin
          = (extractFloatExp .float64 a - 1 + float_format.float64.emin) + 29 := by
        simp only [float_format.emin, float_format.bias, float_format.frac_bits]
        omega
      rw [hexps, zpow_add₀ (by norm_num)]
      generalize (2 : ℚ) ^ ((extractFloatExp .float64 a : ℤ) - 1 + float_format.float64.emin) = u
      simp only [float_format.guard]
      norm_num
      ring
    rw [hscale] at hdelivered
    by_cases hsub : extractFloatExp .float64 a = 0
    · -- the exponent is far below that of the narrow format, with or without the leading bit
      have hfracpos : 0 < extractFloatFrac .float64 a := Nat.pos_of_ne_zero fun h => hzero ⟨hsub, h⟩
      have hsmall : ∀ n : ℕ, n < 2 ^ 53 → 2 * ((n : ℚ) * 2 ^ (-1075 : ℤ)) < 2 ^ float_format.float32.emin := by
        intro n hn
        have hn' : (n : ℚ) < 2 ^ (53 : ℤ) := by exact_mod_cast hn
        calc 2 * ((n : ℚ) * 2 ^ (-1075 : ℤ)) < 2 * (2 ^ (53 : ℤ) * 2 ^ (-1075 : ℤ)) :=
              mul_lt_mul_of_pos_left (mul_lt_mul_of_pos_right hn' (by positivity)) (by norm_num)
          _ = 2 ^ ((1 : ℤ) + (53 + -1075)) := by
              rw [zpow_add₀ (by norm_num), zpow_add₀ (by norm_num), zpow_one]
          _ ≤ 2 ^ float_format.float32.emin := zpow_le_zpow_right₀ (by norm_num) (by decide)
      have hunit : ((extractFloatExp .float64 a : ℕ) : ℤ) - 1 + float_format.float64.emin = -1075 := by
        rw [hsub]
        rfl
      rw [hunit] at hdelivered
      have hmag : magnitude .float64 a = ((2 * extractFloatFrac .float64 a : ℕ) : ℚ) * 2 ^ (-1075 : ℤ) := by
        rw [magnitude, significand, scale, if_pos hsub, if_pos hsub, Nat.add_zero, zero_add,
          show float_format.float64.emin = 1 + -1075 from rfl, zpow_add₀ (by norm_num), zpow_one]
        generalize (2 : ℚ) ^ (-1075 : ℤ) = u
        push_cast
        ring
      rw [value, hmag]
      refine hdelivered.tiny ?_ (hsmall _ (by omega)) ?_ (hsmall _ (by omega))
      · positivity
      · have : (0 : ℚ) < ((2 * extractFloatFrac .float64 a : ℕ) : ℚ) := by exact_mod_cast (by omega)
        positivity
    · have hmag : magnitude .float64 a = ((extractFloatFrac .float64 a + 2 ^ 52 : ℕ) : ℚ) *
          2 ^ ((extractFloatExp .float64 a : ℤ) - 1 + float_format.float64.emin) := by
        rw [magnitude, significand, scale, if_neg hsub, if_neg hsub]
        rfl
      rw [value, hmag]
      exact hdelivered

/-! ## NaNs -/

theorem nan_word (F : float_format) (sign : Bool) {m : ℕ} (hm : m < 2 ^ F.frac_bits) :
    sign.toNat <<< (F.width - 1) ||| F.exp_max <<< F.frac_bits ||| m
      = sign.toNat * 2 ^ (F.width - 1) + (F.exp_max * 2 ^ F.frac_bits + m) := by
  have hlow : F.exp_max * 2 ^ F.frac_bits + m < 2 ^ (F.width - 1) := by
    have : (F.exp_max + 1) * 2 ^ F.frac_bits = 2 ^ (F.width - 1) := by cases F <;> rfl
    rw [Nat.succ_mul] at this
    omega
  rw [Nat.or_assoc, ← Nat.shiftLeft_add_eq_or_of_lt hm, ← Nat.shiftLeft_add_eq_or_of_lt (by rwa [Nat.shiftLeft_eq]),
    Nat.shiftLeft_eq, Nat.shiftLeft_eq]

theorem nan_high (F : float_format) (a : ℕ) (st : float_status) :
    (floatToCommonNaN F a st).1.high = extractFloatFrac F a * 2 ^ (64 - F.frac_bits) := by
  have hpow : 2 ^ 64 = 2 ^ F.frac_bits * 2 ^ (64 - F.frac_bits) := by cases F <;> rfl
  rw [floatToCommonNaN, Nat.shiftLeft_eq, frac_eq, hpow, Nat.mul_mod_mul_right]

/-- The words of NaNs. -/
theorem nan_sum (ha : a < 2 ^ F.width) (h : IsNaN F a) :
    a = (extractFloatSign F a).toNat * 2 ^ (F.width - 1) + (F.exp_max * 2 ^ F.frac_bits + extractFloatFrac F a) := by
  obtain ⟨M, hM, hMa⟩ := exists_sum ha
  have hsplit := fields_split F a
  rw [h.1] at hsplit
  nth_rewrite 1 [hMa] at hsplit
  rw [Nat.mul_add_mod_self_right, Nat.mod_eq_of_lt hM] at hsplit
  rw [← hsplit]
  exact hMa

theorem nan_fields (sign : Bool) {m : ℕ} (hm : m < 2 ^ F.frac_bits) :
    extractFloatSign F (sign.toNat * 2 ^ (F.width - 1) + (F.exp_max * 2 ^ F.frac_bits + m)) = sign ∧
    extractFloatExp F (sign.toNat * 2 ^ (F.width - 1) + (F.exp_max * 2 ^ F.frac_bits + m)) = F.exp_max ∧
    extractFloatFrac F (sign.toNat * 2 ^ (F.width - 1) + (F.exp_max * 2 ^ F.frac_bits + m)) = m := by
  have hlow : F.exp_max * 2 ^ F.frac_bits + m < 2 ^ (F.width - 1) := by
    have : (F.exp_max + 1) * 2 ^ F.frac_bits = 2 ^ (F.width - 1) := by cases F <;> rfl
    rw [Nat.succ_mul] at this
    omega
  obtain ⟨hfrac, hexp, hsign⟩ := fields_of_sum sign hlow
  refine ⟨hsign, ?_, ?_⟩
  · rw [hexp, Nat.mul_comm, Nat.mul_add_div (by positivity), Nat.div_eq_of_lt hm, Nat.add_zero]
  · rw [hfrac, Nat.mul_comm, Nat.mul_add_mod, Nat.mod_eq_of_lt hm]

/-- A NaN that goes from one format to the other keeps the upper bits of its fraction. -/
theorem commonNaN_word (F G : float_format) (hdefault : st.default_nan_mode = false) {m : ℕ}
    (hm : extractFloatFrac F a * 2 ^ (64 - F.frac_bits) / 2 ^ (64 - G.frac_bits) = m) (hne : m ≠ 0) :
    m < 2 ^ G.frac_bits ∧ commonNaNToFloat G (floatToCommonNaN F a st).1 (floatToCommonNaN F a st).2 =
      (extractFloatSign F a).toNat * 2 ^ (G.width - 1) + (G.exp_max * 2 ^ G.frac_bits + m) := by
  have hlt : extractFloatFrac F a * 2 ^ (64 - F.frac_bits) < 2 ^ 64 := by
    calc extractFloatFrac F a * 2 ^ (64 - F.frac_bits) < 2 ^ F.frac_bits * 2 ^ (64 - F.frac_bits) :=
          Nat.mul_lt_mul_of_pos_right frac_lt (by positivity)
      _ = 2 ^ 64 := by cases F <;> rfl
  have hmlt : m < 2 ^ G.frac_bits := by
    rw [← hm]
    apply Nat.div_lt_of_lt_mul
    have : 2 ^ (64 - G.frac_bits) * 2 ^ G.frac_bits = 2 ^ 64 := by cases G <;> rfl
    omega
  have hst : (floatToCommonNaN F a st).2.default_nan_mode = false := by
    unfold floatToCommonNaN
    dsimp only
    split_ifs
    · exact hdefault
    · exact hdefault
  refine ⟨hmlt, ?_⟩
  rw [commonNaNToFloat, nan_high, Nat.shiftRight_eq_div_pow, hm]
  simp only [hst, Bool.false_eq_true, if_false]
  rw [if_pos hne]
  exact nan_word G _ hmlt

theorem commonNaN_status (F : float_format) (a : ℕ) (st : float_status) :
    SameModes st (floatToCommonNaN F a st).2 := by
  unfold floatToCommonNaN
  dsimp only
  split_ifs
  · exact SameModes.raise _ _
  · exact SameModes.refl _

theorem widen_special (st : float_status) (h : extractFloatExp .float32 a = 0xFF) : float32_widen a st =
    if extractFloatFrac .float32 a ≠ 0 then
      (commonNaNToFloat .float64 (floatToCommonNaN .float32 a st).1 (floatToCommonNaN .float32 a st).2,
        (floatToCommonNaN .float32 a st).2)
    else (packFloat .float64 (extractFloatSign .float32 a) 0x7FF 0, st) := if_pos h

theorem narrow_special (st : float_status) (h : extractFloatExp .float64 a = 0x7FF) : float64_narrow a st =
    if extractFloatFrac .float64 a ≠ 0 then
      (commonNaNToFloat .float32 (floatToCommonNaN .float64 a st).1 (floatToCommonNaN .float64 a st).2,
        (floatToCommonNaN .float64 a st).2)
    else (packFloat .float32 (extractFloatSign .float64 a) 0xFF 0, st) := if_pos h

/-! ## There and back -/

theorem narrow_widen_nan (ha : a < 2 ^ 32) (hnan : IsNaN .float32 a) (hdefault : st.default_nan_mode = false) :
    (float64_narrow (float32_widen a st).1 (float32_widen a st).2).1 = a := by
  have hne := hnan.2
  have hfrac := frac_lt (F := .float32) (a := a)
  simp only [float_format.frac_bits] at hfrac
  have hst : (floatToCommonNaN .float32 a st).2.default_nan_mode = false := by
    rw [(commonNaN_status .float32 a st).default_nan, hdefault]
  obtain ⟨hlt, hword⟩ := commonNaN_word .float32 .float64 (a := a) hdefault
    (m := extractFloatFrac .float32 a * 2 ^ 29) (by simp only [float_format.frac_bits]; omega) (by omega)
  obtain ⟨hsign, hexp, hfrac'⟩ := nan_fields (F := .float64) (extractFloatSign .float32 a) hlt
  rw [widen_special st hnan.1, if_pos hne, ← hword] at *
  dsimp only
  generalize commonNaNToFloat .float64 (floatToCommonNaN .float32 a st).1 (floatToCommonNaN .float32 a st).2 = z at *
  -- the payload is where it was
  obtain ⟨-, hback⟩ := commonNaN_word .float64 .float32 (a := z) hst (m := extractFloatFrac .float32 a)
    (by rw [hfrac']; simp only [float_format.frac_bits]; omega) hne
  rw [narrow_special _ hexp, if_pos (by omega), hback, hsign]
  exact (nan_sum ha hnan).symm

theorem narrow_widen_infinity (ha : a < 2 ^ 32) (hinf : IsInfinity .float32 a) :
    (float64_narrow (float32_widen a st).1 (float32_widen a st).2).1 = a := by
  have hword := packFloat_eq (F := .float64) (extractFloatSign .float32 a) (k := float_format.float64.exp_max)
    (n := 0) (by decide)
  obtain ⟨hsign, hexp, hfrac⟩ := nan_fields (F := .float64) (extractFloatSign .float32 a) (m := 0) (by decide)
  rw [← hword, show ((float_format.float64.exp_max : ℕ) : ℤ) = 0x7FF from rfl] at hsign hexp hfrac
  rw [widen_special st hinf.1, if_neg (not_not.mpr hinf.2)]
  dsimp only
  rw [narrow_special st hexp, if_neg (not_not.mpr hfrac), hsign]
  exact (hinf.word ha).symm

theorem narrow_widen (ha : a < 2 ^ 32) (hflush : st.flush_to_zero = false)
    (hdefault : st.default_nan_mode = false) (htiny : st.float_detect_tininess = .float_tininess_before_rounding) :
    (float64_narrow (float32_widen a st).1 (float32_widen a st).2).1 = a := by
  rcases word_cases .float32 ha with hnan | hinf | hfinite
  · exact narrow_widen_nan ha hnan hdefault
  · exact narrow_widen_infinity ha hinf
  · obtain ⟨hst, hfinite', hsign, hvalue⟩ := float32_widen_exact hfinite st
    have hback := float64_narrow_delivered hfinite' htiny
    have hself := delivered_exact st hfinite fun hc => by rw [hflush] at hc; exact Bool.false_ne_true hc.1
    rw [hsign, hvalue] at hback
    rw [hst, hback.unique hself]

/-- The numbers of the narrow format are numbers of the wider one, and no exception is raised for them. -/
theorem float32_to_float64_exact (ha : Finite .float32 a) (st : float_status) :
    let pa := float_squash_input_denormal .float32 a st
    let z := float32_to_float64 a st
    z.2 = pa.2 ∧ Finite .float64 z.1 ∧ extractFloatSign .float64 z.1 = extractFloatSign .float32 a ∧
      value .float64 z.1 = value .float32 pa.1 := by
  obtain ⟨hfinite, hsign, -⟩ := squash_finite ha st
  rw [← hsign]
  exact float32_widen_exact hfinite _

/-- `0.5`. -/
theorem float32_to_float64_exact_half :
    let z := float32_to_float64 0x3F000000 initial_status
    z.2 = initial_status ∧ Finite .float64 z.1 ∧
      extractFloatSign .float64 z.1 = extractFloatSign .float32 0x3F000000 ∧
      value .float64 z.1 = value .float32 0x3F000000 :=
  @float32_to_float64_exact 0x3F000000 (by decide) initial_status

/-- A number of the wider format is rounded to one of the narrow format. -/
theorem float64_to_float32_delivered (ha : Finite .float64 a)
    (htiny : st.float_detect_tininess = .float_tininess_before_rounding) :
    let pa := float_squash_input_denormal .float64 a st
    Delivered .float32 pa.2 (extractFloatSign .float64 a) (value .float64 pa.1) (float64_to_float32 a st) := by
  intro pa
  obtain ⟨hfinite, hsign, -⟩ := squash_finite ha st
  rw [← hsign]
  exact float64_narrow_delivered hfinite (by rw [(squash_modes .float64 a st).detect, htiny])

/-- The smallest subnormal number. -/
theorem float64_to_float32_delivered_smallest :
    Delivered .float32 initial_status false (value .float64 1) (float64_to_float32 1 initial_status) :=
  @float64_to_float32_delivered initial_status 1 (by decide) rfl

/-- Every word of the narrow format comes back as it was, NaNs with their payload and infinities too,
    as long as nothing is flushed and NaNs are not replaced. -/
theorem float32_round_trip (ha : a < 2 ^ 32) (hflush : st.flush_to_zero = false)
    (hinputs : st.flush_inputs_to_zero = false) (hdefault : st.default_nan_mode = false)
    (htiny : st.float_detect_tininess = .float_tininess_before_rounding) :
    (float64_to_float32 (float32_to_float64 a st).1 (float32_to_float64 a st).2).1 = a := by
  have hst : (float32_widen a st).2.flush_inputs_to_zero = false := by
    unfold float32_widen
    dsimp only
    split_ifs
    · rw [(commonNaN_status .float32 a st).flush_inputs, hinputs]
    · exact hinputs
    · exact hinputs
    · exact hinputs
    · exact hinputs
  unfold float64_to_float32 float32_to_float64
  rw [squash_off hinputs]
  dsimp only
  rw [squash_off hst]
  exact narrow_widen ha hflush hdefault htiny

/-- A signaling NaN. -/
theorem float32_round_trip_nan :
    (float64_to_float32 (float32_to_float64 0x7FA00001 initial_status).1
      (float32_to_float64 0x7FA00001 initial_status).2).1 = 0x7FA00001 :=
  @float32_round_trip initial_status 0x7FA00001 (by decide) rfl rfl rfl rfl

end Umeq.Fpu
