import Umeq.Fpu.AddSub
import Umeq.Fpu.Convert

/-! # Conversions of integers to floating point

    * `from_integer_delivered`: each of them rounds the integer it is given.
-/

namespace Umeq.Fpu

open Rounding

variable {F : float_format} {st : float_status}

/-! ## The functions -/

/-- `zSign ? - a : a` -/
def magnitude_of {w : ℕ} (a : BitVec w) : ℕ := (if a.msb then -a else a).toNat

def int32_to_float32 (a : BitVec 32) (st : float_status) : ℕ × float_status :=
  if a = 0 then (0, st)
  else if a = 0x80000000#32 then (packFloat .float32 true 0x9E 0, st)
  else normalizeRoundAndPackFloat .float32 a.msb 0x9C (magnitude_of a) st

def int32_to_float64 (a : BitVec 32) (st : float_status) : ℕ × float_status :=
  if a = 0 then (0, st)
  else
    let absA := magnitude_of a
    let shiftCount := countLeadingZeros 32 absA + 21
    (packFloat .float64 a.msb (0x432 - shiftCount) ((absA <<< shiftCount) % 2 ^ 64), st)

/-- What `int64_to_float32` and `uint64_to_float32` do with a magnitude. -/
def magnitude_to_float32 (zSign : Bool) (absA : ℕ) (st : float_status) : ℕ × float_status :=
  let shiftCount : ℤ := countLeadingZeros 64 absA - 40
  if 0 ≤ shiftCount then (packFloat .float32 zSign (0x95 - shiftCount) ((absA <<< shiftCount.toNat) % 2 ^ 32), st)
  else
    let shiftCount := shiftCount + 7
    let absA := if shiftCount < 0 then shift64RightJamming absA (-shiftCount).toNat
      else (absA <<< shiftCount.toNat) % 2 ^ 64
    roundAndPackFloat .float32 zSign (0x9C - shiftCount) (absA % 2 ^ 32) st

def int64_to_float32 (a : BitVec 64) (st : float_status) : ℕ × float_status :=
  if a = 0 then (0, st) else magnitude_to_float32 a.msb (magnitude_of a) st

def uint64_to_float32 (a : BitVec 64) (st : float_status) : ℕ × float_status :=
  if a = 0 then (0, st) else magnitude_to_float32 false a.toNat st

def int64_to_float64 (a : BitVec 64) (st : float_status) : ℕ × float_status :=
  if a = 0 then (0, st)
  else if a = 0x8000000000000000#64 then (packFloat .float64 true 0x43E 0, st)
  else normalizeRoundAndPackFloat .float64 a.msb 0x43C (magnitude_of a) st

def uint64_to_float64 (a : BitVec 64) (st : float_status) : ℕ × float_status :=
  if a = 0 then (0, st)
  else if a.msb then normalizeRoundAndPackFloat .float64 false (0x43C + 1) (shift64RightJamming a.toNat 1) st
  else normalizeRoundAndPackFloat .float64 false 0x43C a.toNat st

def uint32_to_float32 (a : BitVec 32) (st : float_status) : ℕ × float_status :=
  int64_to_float32 (a.setWidth 64) st

def uint32_to_float64 (a : BitVec 32) (st : float_status) : ℕ × float_status :=
  int64_to_float64 (a.setWidth 64) st

/-! ## Integers as numbers -/

theorem magnitude_of_eq {w : ℕ} (a : BitVec w) : magnitude_of a = a.toInt.natAbs := by
  have hlt := a.isLt
  unfold magnitude_of
  rw [BitVec.toInt_eq_msb_cond]
  cases hmsb : a.msb
  · simp
  · have hge := BitVec.toNat_ge_of_msb_true hmsb
    have hpos : 0 < a.toNat := lt_of_lt_of_le (by positivity) hge
    rw [if_pos rfl, if_pos rfl, BitVec.toNat_neg, Nat.mod_eq_of_lt (by omega)]
    omega

theorem signed_natAbs (x : ℤ) : signed (decide (x < 0)) ((x.natAbs : ℕ) : ℚ) = x := by
  by_cases h : x < 0
  · rw [decide_eq_true h, signed, if_pos rfl]
    have heq : ((x.natAbs : ℕ) : ℤ) = -x := by omega
    rw [← Int.cast_natCast x.natAbs, heq, Int.cast_neg, neg_neg]
  · rw [decide_eq_false h, signed, if_neg Bool.false_ne_true]
    have heq : ((x.natAbs : ℕ) : ℤ) = x := by omega
    rw [← Int.cast_natCast x.natAbs, heq]

/-- An integer that fits the significand is packed as it is. -/
theorem pack_integer (st : float_status) (zSign : Bool) {k n x : ℕ} (hn : 2 ^ F.frac_bits ≤ n)
    (hn' : n ≤ 2 ^ F.precision) (hroom : k * 2 ^ F.frac_bits + n < F.exp_max * 2 ^ F.frac_bits)
    (hx : (n : ℚ) * 2 ^ (k + F.emin) = x) (hpos : 0 < x) :
    Delivered F st zSign (signed zSign x) (packFloat F zSign k n, st) := by
  obtain ⟨hfinite, hsign, hvalue⟩ := pack_spec zSign (Or.inl hn) hn' hroom
  rw [hx] at hvalue
  have hone : (1 : ℚ) ≤ x := by exact_mod_cast hpos
  have hmin : min_normal F ≤ 1 := by
    rw [min_normal, ← zpow_natCast, ← zpow_add₀ (by norm_num)]
    exact zpow_le_one_of_nonpos₀ (by norm_num) (by cases F <;> decide)
  have h := delivered_exact st hfinite fun hc => by
    rw [hvalue, abs_signed, abs_of_nonneg (by positivity)] at hc
    linarith [hc.2.2]
  rwa [hsign, hvalue] at h

/-- An integer is normalized, and then rounded. -/
theorem normalize_integer (F : float_format) (zSign : Bool) {n : ℕ} (hne : n ≠ 0) (hlt : n < 2 ^ (F.width - 1))
    (htiny : st.float_detect_tininess = .float_tininess_before_rounding) :
    Delivered F st zSign (signed zSign n) (normalizeRoundAndPackFloat F zSign (F.guard - F.emin) n st) := by
  have hcell : ∀ i, 2 ^ (F.width - 2) ≤ n * 2 ^ i → n * 2 ^ i < 2 ^ (F.width - 1) →
      SameCell (2 ^ (F.guard - 1)) ((n * 2 ^ i : ℕ) : ℚ) ((n : ℚ) * 2 ^ i) := by
    intro i _ _
    push_cast
    exact SameCell.refl _ _
  have h := normalizeRoundAndPack_delivered zSign (F.guard - F.emin) hne hlt hcell
    (by cases F <;> decide) (by cases F <;> decide) htiny
  have hvalue : (n : ℚ) / 2 ^ F.guard * 2 ^ (((F.guard : ℤ) - F.emin) + F.emin) = n := by
    rw [Int.sub_add_cancel, zpow_natCast]
    field_simp
  rwa [hvalue] at h

theorem zero_delivered (F : float_format) (st : float_status) : Delivered F st false 0 (0, st) := by
  have h := delivered_zero (F := F) false st
  rwa [show packFloat F false 0 0 = 0 by cases F <;> rfl] at h

/-- What a conversion makes of an integer. -/
def Converted (F : float_format) (st : float_status) (x : ℤ) (z : ℕ × float_status) : Prop :=
  Delivered F st (decide (x < 0)) x z

theorem converted_zero {w : ℕ} {a : BitVec w} (h : a = 0) : Converted F st a.toInt (0, st) := by
  have hint : a.toInt = 0 := by simp [h]
  rw [hint, Converted, Int.cast_zero, decide_eq_false (lt_irrefl _)]
  exact zero_delivered F st

theorem converted_signed {w : ℕ} {a : BitVec w} {z : ℕ × float_status}
    (h : Delivered F st a.msb (signed a.msb (magnitude_of a)) z) : Converted F st a.toInt z := by
  rw [BitVec.msb_eq_toInt, magnitude_of_eq, signed_natAbs] at h
  exact h

theorem magnitude_of_ne {w : ℕ} {a : BitVec w} (h : ¬ a = 0) : magnitude_of a ≠ 0 := by
  rw [magnitude_of_eq, Ne, Int.natAbs_eq_zero]
  intro hzero
  exact h (BitVec.eq_of_toInt_eq (by simp [hzero]))

/-! ## Each conversion -/

variable (htiny : st.float_detect_tininess = .float_tininess_before_rounding)

theorem int32_to_float64_converted (a : BitVec 32) (st : float_status) :
    Converted .float64 st a.toInt (int32_to_float64 a st) := by
  unfold int32_to_float64
  split_ifs with hzero
  · exact converted_zero hzero
  · have hne := magnitude_of_ne hzero
    have hlt : magnitude_of a < 2 ^ 32 := BitVec.isLt _
    obtain ⟨hclz, hge, hlt'⟩ := countLeadingZeros_spec hne hlt
    apply converted_signed
    dsimp only
    generalize magnitude_of a = n at *
    generalize countLeadingZeros 32 n = c at *
    -- the leading bit goes where it counts in the exponent
    have hshift : n * 2 ^ (c + 21) = n * 2 ^ c * 2 ^ 21 := by rw [pow_add, mul_assoc]
    have hk : (0x432 : ℤ) - ((c + 21 : ℕ) : ℤ) = ((0x432 - (c + 21) : ℕ) : ℤ) := by omega
    rw [Nat.shiftLeft_eq, Nat.mod_eq_of_lt (by omega), hk]
    refine pack_integer (F := .float64) st a.msb ?_ ?_ ?_ ?_ (Nat.pos_of_ne_zero hne)
    · simp only [float_format.frac_bits]
      omega
    · simp only [float_format.precision, float_format.frac_bits]
      omega
    · simp only [float_format.exp_max, float_format.frac_bits]
      omega
    · have hexp : ((0x432 - (c + 21) : ℕ) : ℤ) + float_format.float64.emin = -((c + 21 : ℕ) : ℤ) := by
        rw [show float_format.float64.emin = -1074 from rfl]
        omega
      rw [hexp, zpow_neg, zpow_natCast]
      push_cast
      field_simp

include htiny

/-- In the units of the word that is rounded. -/
theorem significand_rounded (zSign : Bool) {n S : ℕ} {e : ℤ} {Y : ℚ} (h : Normalized .float32 S Y)
    (hY : Y * 2 ^ e = n) (he : -64 ≤ e) (he' : e ≤ 64) :
    Delivered .float32 st zSign (signed zSign n) (roundAndPackFloat .float32 zSign (0x9C + e) S st) := by
  have hdelivered := roundAndPack_delivered zSign (0x9C + e) h (by omega) (by omega) htiny
  have hvalue : Y / 2 ^ float_format.float32.guard * 2 ^ (0x9C + e + float_format.float32.emin) = n := by
    rw [show (0x9C : ℤ) + e + float_format.float32.emin = 7 + e by
        rw [show float_format.float32.emin = -149 from rfl]; ring,
      zpow_add₀ (by norm_num), ← hY, float_format.guard]
    norm_num
    ring
  rwa [hvalue] at hdelivered

theorem magnitude_to_float32_delivered (zSign : Bool) {n : ℕ} (hne : n ≠ 0) (hlt : n < 2 ^ 64) :
    Delivered .float32 st zSign (signed zSign n) (magnitude_to_float32 zSign n st) := by
  obtain ⟨hclz, hge, hlt'⟩ := countLeadingZeros_spec hne hlt
  unfold magnitude_to_float32
  dsimp only
  generalize countLeadingZeros 64 n = c at *
  by_cases hexact : 40 ≤ c
  · -- all bits fit the significand
    obtain ⟨d, rfl⟩ := Nat.exists_eq_add_of_le hexact
    have hshift : n * 2 ^ (40 + d) = n * 2 ^ d * 2 ^ 40 := by rw [Nat.add_comm, pow_add, mul_assoc]
    have hsub : ((40 + d : ℕ) : ℤ) - 40 = d := by push_cast; ring
    have hk : (0x95 : ℤ) - d = ((0x95 - d : ℕ) : ℤ) := by omega
    rw [hsub, if_pos (by omega), Int.toNat_natCast, Nat.shiftLeft_eq, Nat.mod_eq_of_lt (by omega), hk]
    refine pack_integer (F := .float32) st zSign ?_ ?_ ?_ ?_ (Nat.pos_of_ne_zero hne)
    · simp only [float_format.frac_bits]
      omega
    · simp only [float_format.precision, float_format.frac_bits]
      omega
    · simp only [float_format.exp_max, float_format.frac_bits]
      omega
    · have hexp : ((0x95 - d : ℕ) : ℤ) + float_format.float32.emin = -(d : ℤ) := by
        rw [show float_format.float32.emin = -149 from rfl]
        omega
      rw [hexp, zpow_neg, zpow_natCast]
      push_cast
      field_simp
  · rw [if_neg (by omega)]
    by_cases hright : c < 33
    · -- bits go out to the right
      obtain ⟨d, hd⟩ := Nat.exists_eq_add_of_lt hright
      have hcount : (c : ℤ) - 40 + 7 = -((d + 1 : ℕ) : ℤ) := by omega
      have hlow : 2 ^ 30 * 2 ^ (d + 1) ≤ n := by
        have : 2 ^ 63 = 2 ^ 30 * 2 ^ (d + 1) * 2 ^ c := by rw [← pow_add, ← pow_add]; congr 1; omega
        exact Nat.le_of_mul_le_mul_right (this ▸ hge) (by positivity)
      have hhigh : n < 2 ^ 31 * 2 ^ (d + 1) := by
        have : 2 ^ 64 = 2 ^ 31 * 2 ^ (d + 1) * 2 ^ c := by rw [← pow_add, ← pow_add]; congr 1; omega
        exact Nat.lt_of_mul_lt_mul_right (this ▸ hlt')
      have hS := le_jam hlow (by norm_num)
      have hS' := jam_lt hhigh (by norm_num)
      rw [hcount, if_pos (by omega), neg_neg, Int.toNat_natCast, shift64RightJamming, shiftRightJamming_eq hlt,
        Nat.mod_eq_of_lt (by omega), sub_neg_eq_add]
      have hcell : SameCell (2 ^ 6) (jam n (d + 1)) ((n : ℚ) / 2 ^ (d + 1)) :=
        SameCell.pow_le (i := 1) (by rw [pow_one]; exact sameCell_jam _ _) (by norm_num)
      refine significand_rounded htiny zSign ⟨hS, hS', hcell⟩ ?_ (by omega) (by omega)
      rw [zpow_natCast]
      field_simp
    · -- zeros come in from the right
      obtain ⟨d, rfl⟩ := Nat.exists_eq_add_of_le (not_lt.mp hright)
      have hcount : ((33 + d : ℕ) : ℤ) - 40 + 7 = d := by push_cast; ring
      have hshift : n * 2 ^ (33 + d) = n * 2 ^ d * 2 ^ 33 := by rw [Nat.add_comm, pow_add, mul_assoc]
      rw [hcount, if_neg (by omega), Int.toNat_natCast, Nat.shiftLeft_eq, Nat.mod_eq_of_lt (by omega),
        Nat.mod_eq_of_lt (by omega), sub_eq_add_neg]
      refine significand_rounded (Y := (n * 2 ^ d : ℕ)) htiny zSign ⟨?_, ?_, SameCell.refl _ _⟩ ?_ (by omega) (by omega)
      · simp only [float_format.width]
        omega
      · simp only [float_format.width]
        omega
      · rw [zpow_neg, zpow_natCast]
        push_cast
        field_simp

omit htiny in
/-- The smallest integer of a width is a power of two, and has no magnitude in that width. -/
theorem power_delivered (st : float_status) {k j : ℕ} (hj : (k : ℤ) + F.emin + F.frac_bits = j)
    (hk : k + 1 < F.exp_max) : Delivered F st true ((-2 ^ j : ℤ) : ℚ) (packFloat F true (k + 1 : ℕ) 0, st) := by
  have hroom : k * 2 ^ F.frac_bits + 2 ^ F.frac_bits < F.exp_max * 2 ^ F.frac_bits := by
    rw [← Nat.succ_mul]
    exact Nat.mul_lt_mul_of_pos_right hk (by positivity)
  have hle : 2 ^ F.frac_bits ≤ 2 ^ F.precision := Nat.pow_le_pow_right (by norm_num) (Nat.le_succ _)
  have hx : ((2 ^ F.frac_bits : ℕ) : ℚ) * 2 ^ ((k : ℤ) + F.emin) = ((2 ^ j : ℕ) : ℚ) := by
    push_cast
    rw [← zpow_natCast, ← zpow_add₀ (by norm_num), ← zpow_natCast, ← hj]
    congr 1
    ring
  have h := pack_integer st true (le_refl _) hle hroom hx (by positivity)
  have hcarry := packFloat_carry F true k 0
  rw [Nat.zero_add] at hcarry
  push_cast
  rw [hcarry]
  simpa [signed] using h

theorem int32_to_float32_converted (a : BitVec 32) : Converted .float32 st a.toInt (int32_to_float32 a st) := by
  unfold int32_to_float32
  split_ifs with hzero hmin
  · exact converted_zero hzero
  · rw [hmin]
    exact power_delivered (F := .float32) st (k := 0x9D) (j := 31) (by decide) (by decide)
  · apply converted_signed
    have hlt : magnitude_of a < 2 ^ 31 := by
      have hne : a.toInt ≠ -2 ^ 31 := fun h => hmin (BitVec.eq_of_toInt_eq h)
      have hlow := BitVec.le_toInt a
      have hhigh := BitVec.toInt_lt (x := a)
      rw [magnitude_of_eq]
      omega
    exact normalize_integer .float32 a.msb (magnitude_of_ne hzero) hlt htiny

theorem int64_to_float64_converted (a : BitVec 64) : Converted .float64 st a.toInt (int64_to_float64 a st) := by
  unfold int64_to_float64
  split_ifs with hzero hmin
  · exact converted_zero hzero
  · rw [hmin]
    exact power_delivered (F := .float64) st (k := 0x43D) (j := 63) (by decide) (by decide)
  · apply converted_signed
    have hlt : magnitude_of a < 2 ^ 63 := by
      have hne : a.toInt ≠ -2 ^ 63 := fun h => hmin (BitVec.eq_of_toInt_eq h)
      have hlow := BitVec.le_toInt a
      have hhigh := BitVec.toInt_lt (x := a)
      rw [magnitude_of_eq]
      omega
    exact normalize_integer .float64 a.msb (magnitude_of_ne hzero) hlt htiny

theorem int64_to_float32_converted (a : BitVec 64) : Converted .float32 st a.toInt (int64_to_float32 a st) := by
  unfold int64_to_float32
  split_ifs with hzero
  · exact converted_zero hzero
  · apply converted_signed
    exact magnitude_to_float32_delivered htiny a.msb (magnitude_of_ne hzero) (BitVec.isLt _)

omit htiny in
theorem converted_unsigned {n : ℕ} {z : ℕ × float_status} (h : Delivered F st false (signed false n) z) :
    Converted F st n z := by
  rw [Converted, decide_eq_false (by omega)]
  simpa [signed] using h

omit htiny in
theorem unsigned_zero {w : ℕ} {a : BitVec w} (h : a = 0) : Converted F st a.toNat (0, st) := by
  have hnat : a.toNat = 0 := by simp [h]
  rw [hnat]
  apply converted_unsigned
  rw [Nat.cast_zero, signed_zero]
  exact zero_delivered F st

theorem uint64_to_float32_converted (a : BitVec 64) : Converted .float32 st a.toNat (uint64_to_float32 a st) := by
  unfold uint64_to_float32
  split_ifs with hzero
  · exact unsigned_zero hzero
  · apply converted_unsigned
    have hne : a.toNat ≠ 0 := fun h => hzero (BitVec.eq_of_toNat_eq (by simp [h]))
    exact magnitude_to_float32_delivered htiny false hne a.isLt

theorem uint64_to_float64_converted (a : BitVec 64) : Converted .float64 st a.toNat (uint64_to_float64 a st) := by
  have hlt := a.isLt
  unfold uint64_to_float64
  split_ifs with hzero hmsb
  · exact unsigned_zero hzero
  · -- one bit is or-ed into the next one, far below the significand
    have hge := BitVec.toNat_ge_of_msb_true hmsb
    have hS := le_jam (a := a.toNat) (n := 1) (m := 2 ^ 62) (by omega) (by norm_num)
    have hS' := jam_lt (a := a.toNat) (n := 1) (m := 2 ^ 63) (by omega) (by norm_num)
    apply converted_unsigned
    rw [shift64RightJamming, shiftRightJamming_eq hlt]
    have hcell : ∀ i, 2 ^ (float_format.float64.width - 2) ≤ jam a.toNat 1 * 2 ^ i →
        jam a.toNat 1 * 2 ^ i < 2 ^ (float_format.float64.width - 1) →
        SameCell (2 ^ (float_format.float64.guard - 1)) ((jam a.toNat 1 * 2 ^ i : ℕ) : ℚ)
          ((a.toNat : ℚ) / 2 ^ 1 * 2 ^ i) := by
      intro i _ hi
      obtain rfl : i = 0 := by
        by_contra hne
        have : 2 ^ 1 ≤ 2 ^ i := Nat.pow_le_pow_right (by norm_num) (by omega)
        have := Nat.mul_le_mul hS this
        simp only [float_format.width] at hi
        omega
      rw [pow_zero, pow_zero, Nat.mul_one, mul_one]
      exact SameCell.pow_le (i := 1) (by rw [pow_one]; exact sameCell_jam _ _) (by decide)
    have h := normalizeRoundAndPack_delivered (F := .float64) false (0x43C + 1) (by omega)
      (by simp only [float_format.width]; omega) hcell (by norm_num) (by norm_num) htiny
    have hvalue : (a.toNat : ℚ) / 2 ^ 1 / 2 ^ float_format.float64.guard * 2 ^ ((0x43C : ℤ) + 1 + float_format.float64.emin)
        = a.toNat := by
      rw [show (0x43C : ℤ) + 1 + float_format.float64.emin = (11 : ℕ) from rfl, zpow_natCast, float_format.guard]
      norm_num
      ring
    rwa [hvalue] at h
  · apply converted_unsigned
    have hne : a.toNat ≠ 0 := fun h => hzero (BitVec.eq_of_toNat_eq (by simp [h]))
    have hsmall : a.toNat < 2 ^ 63 := BitVec.toNat_lt_of_msb_false (Bool.eq_false_iff.mpr hmsb)
    exact normalize_integer .float64 false hne hsmall htiny

omit htiny in
theorem setWidth_toInt (a : BitVec 32) : (a.setWidth 64).toInt = a.toNat := by
  have hlt := a.isLt
  have hnat : (a.setWidth 64).toNat = a.toNat := by
    rw [BitVec.toNat_setWidth]
    omega
  rw [BitVec.toInt_eq_toNat_of_lt (by omega), hnat]

/-- All conversions round the integer they are given, signed or not, once and in the current mode. -/
theorem from_integer_delivered :
    (∀ a : BitVec 32, Converted .float32 st a.toInt (int32_to_float32 a st) ∧
      Converted .float64 st a.toInt (int32_to_float64 a st) ∧
      Converted .float32 st a.toNat (uint32_to_float32 a st) ∧
      Converted .float64 st a.toNat (uint32_to_float64 a st)) ∧
    ∀ a : BitVec 64, Converted .float32 st a.toInt (int64_to_float32 a st) ∧
      Converted .float64 st a.toInt (int64_to_float64 a st) ∧
      Converted .float32 st a.toNat (uint64_to_float32 a st) ∧
      Converted .float64 st a.toNat (uint64_to_float64 a st) := by
  constructor
  · intro a
    have hs := int64_to_float32_converted htiny (a.setWidth 64)
    have hd := int64_to_float64_converted htiny (a.setWidth 64)
    rw [setWidth_toInt] at hs hd
    exact ⟨int32_to_float32_converted htiny a, int32_to_float64_converted a st, hs, hd⟩
  · intro a
    exact ⟨int64_to_float32_converted htiny a, int64_to_float64_converted htiny a,
      uint64_to_float32_converted htiny a, uint64_to_float64_converted htiny a⟩

omit htiny in
/-- In the status that a thread starts with. -/
theorem from_integer_delivered_initial :
    (∀ a : BitVec 32, Converted .float32 initial_status a.toInt (int32_to_float32 a initial_status) ∧
      Converted .float64 initial_status a.toInt (int32_to_float64 a initial_status) ∧
      Converted .float32 initial_status a.toNat (uint32_to_float32 a initial_status) ∧
      Converted .float64 initial_status a.toNat (uint32_to_float64 a initial_status)) ∧
    ∀ a : BitVec 64, Converted .float32 initial_status a.toInt (int64_to_float32 a initial_status) ∧
      Converted .float64 initial_status a.toInt (int64_to_float64 a initial_status) ∧
      Converted .float32 initial_status a.toNat (uint64_to_float32 a initial_status) ∧
      Converted .float64 initial_status a.toNat (uint64_to_float64 a initial_status) :=
  from_integer_delivered rfl

end Umeq.Fpu
