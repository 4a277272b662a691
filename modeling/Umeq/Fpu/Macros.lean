import Umeq.Lib.Rounding

/-! # Primitive arithmetic of `softfloat-macros.h`

    Shifts with a sticky bit, leading zeros, and numbers of 128 bits in two words. Words are
    natural numbers, reduced where the C code wraps around.
-/

namespace Umeq.Fpu

open Rounding

/-! ## Shifts -/

/-- `shift32RightJamming` and `shift64RightJamming`, on words of `w` bits. -/
def shiftRightJamming (w a count : ℕ) : ℕ :=
  if count = 0 then a
  else if count < w then (a >>> count) ||| (if (a <<< (w - count)) % 2 ^ w ≠ 0 then 1 else 0)
  else if a ≠ 0 then 1 else 0

def shift32RightJamming (a count : ℕ) : ℕ := shiftRightJamming 32 a count

def shift64RightJamming (a count : ℕ) : ℕ := shiftRightJamming 64 a count

theorem shiftRightJamming_eq {w a : ℕ} (ha : a < 2 ^ w) (count : ℕ) :
    shiftRightJamming w a count = jam a count := by
  unfold shiftRightJamming
  split_ifs with hzero hlt hout hany
  · rw [hzero, jam_of_dvd (Nat.mod_one a), pow_zero, Nat.div_one]
  · -- the bits that a shift to the left keeps are the ones that go out to the right
    have hne : a % 2 ^ count ≠ 0 := by
      intro hmod
      apply hout
      rw [Nat.shiftLeft_eq, show 2 ^ w = 2 ^ count * 2 ^ (w - count) by
        rw [← pow_add, Nat.add_sub_cancel' hlt.le], Nat.mul_mod_mul_right, hmod, Nat.zero_mul]
    rw [jam, sticky, if_neg hne, Nat.shiftRight_eq_div_pow]
  · have hmod : a % 2 ^ count = 0 := by
      rw [not_not, Nat.shiftLeft_eq, show 2 ^ w = 2 ^ count * 2 ^ (w - count) by
        rw [← pow_add, Nat.add_sub_cancel' hlt.le], Nat.mul_mod_mul_right] at hout
      exact (Nat.mul_eq_zero.mp hout).resolve_right (by positivity)
    rw [jam, sticky, if_pos hmod, Nat.shiftRight_eq_div_pow]
  · have hbig : a < 2 ^ count := ha.trans_le (Nat.pow_le_pow_right (by norm_num) (by omega))
    rw [jam, sticky, Nat.mod_eq_of_lt hbig, if_neg hany, Nat.div_eq_of_lt hbig]
    rfl
  · rw [not_not] at hany
    subst hany
    simp [jam, sticky]

/-- Nothing that is not zero becomes zero. -/
theorem jam_eq_zero {a n : ℕ} (h : jam a n = 0) : a = 0 := by
  by_cases hmod : a % 2 ^ n = 0
  · rw [jam_of_dvd hmod] at h
    have := Nat.div_add_mod a (2 ^ n)
    rw [h, hmod] at this
    omega
  · rw [jam_of_not_dvd hmod] at h
    omega

theorem jam_le {a n m : ℕ} (h : a ≤ m * 2 ^ n) (heven : m % 2 = 0) : jam a n ≤ m := by
  have hpos : 0 < 2 ^ n := by positivity
  by_cases hmod : a % 2 ^ n = 0
  · rw [jam_of_dvd hmod]
    exact Nat.div_le_of_le_mul (by rwa [Nat.mul_comm])
  · rw [jam_of_not_dvd hmod]
    have hlt : a / 2 ^ n < m := by
      rw [Nat.div_lt_iff_lt_mul hpos]
      refine lt_of_le_of_ne h fun heq => hmod ?_
      rw [heq, Nat.mul_mod_left]
    omega

theorem jam_lt {a n m : ℕ} (h : a < m * 2 ^ n) (heven : m % 2 = 0) : jam a n < m := by
  refine lt_of_le_of_ne (jam_le h.le heven) fun heq => ?_
  have hlt : a / 2 ^ n < m := (Nat.div_lt_iff_lt_mul (by positivity)).mpr h
  by_cases hmod : a % 2 ^ n = 0
  · rw [jam_of_dvd hmod] at heq
    omega
  · rw [jam_of_not_dvd hmod] at heq
    omega

/-- An even number above the bits that are shifted out. -/
theorem jam_add (a n : ℕ) {m : ℕ} (heven : m % 2 = 0) : jam (a + m * 2 ^ n) n = jam a n + m := by
  have hdiv : (a + m * 2 ^ n) / 2 ^ n = a / 2 ^ n + m := Nat.add_mul_div_right _ _ (by positivity)
  have hmod : (a + m * 2 ^ n) % 2 ^ n = a % 2 ^ n := Nat.add_mul_mod_self_right _ _ _
  by_cases h : a % 2 ^ n = 0
  · rw [jam_of_dvd h, jam_of_dvd (hmod.trans h), hdiv]
  · rw [jam_of_not_dvd h, jam_of_not_dvd (by rwa [hmod]), hdiv]
    omega

theorem le_jam {a n m : ℕ} (h : m * 2 ^ n ≤ a) (heven : m % 2 = 0) : m ≤ jam a n := by
  have hle : m ≤ a / 2 ^ n := (Nat.le_div_iff_mul_le (by positivity)).mpr h
  by_cases hmod : a % 2 ^ n = 0
  · rwa [jam_of_dvd hmod]
  · rw [jam_of_not_dvd hmod]
    omega

/-! ## Leading zeros -/

/-- `countLeadingZeros32` and `countLeadingZeros64`. -/
def countLeadingZeros (w a : ℕ) : ℕ := if a = 0 then w else w - 1 - Nat.log2 a

/-- Shifted by its leading zeros, a number has its upper bit. -/
theorem countLeadingZeros_spec {w a : ℕ} (ha : a ≠ 0) (hlt : a < 2 ^ w) :
    countLeadingZeros w a < w ∧ 2 ^ (w - 1) ≤ a * 2 ^ countLeadingZeros w a ∧
      a * 2 ^ countLeadingZeros w a < 2 ^ w := by
  have hlow : 2 ^ Nat.log2 a ≤ a := Nat.log2_self_le ha
  have hhigh : a < 2 ^ (Nat.log2 a + 1) := Nat.lt_log2_self
  have hw : Nat.log2 a < w := (Nat.log2_lt ha).mpr hlt
  rw [countLeadingZeros, if_neg ha]
  refine ⟨by omega, ?_, ?_⟩
  · calc 2 ^ (w - 1) = 2 ^ Nat.log2 a * 2 ^ (w - 1 - Nat.log2 a) := by
          rw [← pow_add]
          congr 1
          omega
      _ ≤ _ := Nat.mul_le_mul_right _ hlow
  · calc a * 2 ^ (w - 1 - Nat.log2 a) < 2 ^ (Nat.log2 a + 1) * 2 ^ (w - 1 - Nat.log2 a) :=
          Nat.mul_lt_mul_of_pos_right hhigh (by positivity)
      _ = 2 ^ w := by
          rw [← pow_add]
          congr 1
          omega

/-! ## Two words -/

def add128 (a0 a1 b0 b1 : ℕ) : ℕ × ℕ :=
  let z1 := (a1 + b1) % 2 ^ 64
  ((a0 + b0 + if z1 < a1 then 1 else 0) % 2 ^ 64, z1)

def sub128 (a0 a1 b0 b1 : ℕ) : ℕ × ℕ :=
  ((a0 + 2 * 2 ^ 64 - b0 - if a1 < b1 then 1 else 0) % 2 ^ 64, (a1 + 2 ^ 64 - b1) % 2 ^ 64)

/-- The middle products are added, with what they carry. -/
def mul64To128 (a b : ℕ) : ℕ × ℕ :=
  let aLow := a % 2 ^ 32
  let aHigh := a >>> 32
  let bLow := b % 2 ^ 32
  let bHigh := b >>> 32
  let z1 := aLow * bLow
  let zMiddleB := aHigh * bLow
  let z0 := aHigh * bHigh
  let zMiddleA := (aLow * bHigh + zMiddleB) % 2 ^ 64
  let z0 := (z0 + ((if zMiddleA < zMiddleB then 1 else 0) <<< 32) + (zMiddleA >>> 32)) % 2 ^ 64
  let zMiddleA := (zMiddleA <<< 32) % 2 ^ 64
  let z1 := (z1 + zMiddleA) % 2 ^ 64
  ((z0 + if z1 < zMiddleA then 1 else 0) % 2 ^ 64, z1)

/-- The two words together. -/
def pair128 (z : ℕ × ℕ) : ℕ := z.1 * 2 ^ 64 + z.2

theorem add128_eq {a0 a1 b0 b1 : ℕ} (ha : a1 < 2 ^ 64) (hb : b1 < 2 ^ 64) :
    pair128 (add128 a0 a1 b0 b1) = (pair128 (a0, a1) + pair128 (b0, b1)) % 2 ^ 128 := by
  simp only [pair128, add128]
  split_ifs <;> omega

theorem sub128_eq {a0 a1 b0 b1 : ℕ} (ha0 : a0 < 2 ^ 64) (ha : a1 < 2 ^ 64) (hb0 : b0 < 2 ^ 64)
    (hb : b1 < 2 ^ 64) :
    pair128 (sub128 a0 a1 b0 b1) = (pair128 (a0, a1) + 2 ^ 128 - pair128 (b0, b1)) % 2 ^ 128 := by
  simp only [pair128, sub128]
  split_ifs <;> omega

/-- The words of the product. -/
theorem mul64To128_eq {a b : ℕ} (ha : a < 2 ^ 64) (hb : b < 2 ^ 64) :
    mul64To128 a b = (a * b / 2 ^ 64, a * b % 2 ^ 64) := by
  have haHigh : a >>> 32 < 2 ^ 32 := by rw [Nat.shiftRight_eq_div_pow]; omega
  have hbHigh : b >>> 32 < 2 ^ 32 := by rw [Nat.shiftRight_eq_div_pow]; omega
  have haLow : a % 2 ^ 32 < 2 ^ 32 := Nat.mod_lt _ (by norm_num)
  have hbLow : b % 2 ^ 32 < 2 ^ 32 := Nat.mod_lt _ (by norm_num)
  have hasum : a = (a >>> 32) * 2 ^ 32 + a % 2 ^ 32 := by rw [Nat.shiftRight_eq_div_pow]; omega
  have hbsum : b = (b >>> 32) * 2 ^ 32 + b % 2 ^ 32 := by rw [Nat.shiftRight_eq_div_pow]; omega
  simp only [mul64To128]
  generalize a >>> 32 = ah at *
  generalize b >>> 32 = bh at *
  generalize a % 2 ^ 32 = al at *
  generalize b % 2 ^ 32 = bl at *
  -- four products of halves, each of which fits a word
  have hprod : a * b = ah * bh * 2 ^ 64 + (al * bh + ah * bl) * 2 ^ 32 + al * bl := by
    rw [hasum, hbsum]
    ring
  have hbound : ∀ {x y : ℕ}, x < 2 ^ 32 → y < 2 ^ 32 → x * y ≤ (2 ^ 32 - 1) * (2 ^ 32 - 1) :=
    fun hx hy => Nat.mul_le_mul (by omega) (by omega)
  have h1 := hbound haHigh hbHigh
  have h2 := hbound haLow hbHigh
  have h3 := hbound haHigh hbLow
  have h4 := hbound haLow hbLow
  rw [hprod]
  clear hprod hasum hbsum
  generalize ah * bh = p0 at *
  generalize al * bh = p1 at *
  generalize ah * bl = p2 at *
  generalize al * bl = p3 at *
  simp only [Nat.shiftRight_eq_div_pow, Nat.shiftLeft_eq, Prod.mk.injEq]
  clear hbound
  constructor
  · split_ifs <;> omega
  · omega

/-! ## Division -/

/-- The loops that correct a quotient that is too large: while the remainder is negative, `step` is
    taken from the quotient and the divisor is added back. -/
def subtractLoop (step d0 d1 : ℕ) : ℕ → ℕ → ℕ × ℕ → Option (ℕ × (ℕ × ℕ))
  | 0, _, _ => none
  | fuel + 1, z, rem =>
    if 2 ^ 63 ≤ rem.1 then subtractLoop step d0 d1 fuel ((z + 2 ^ 64 - step) % 2 ^ 64) (add128 rem.1 rem.2 d0 d1)
    else some (z, rem)

def estimateDiv128To64 (fuel a0 a1 b : ℕ) : Option ℕ :=
  if b ≤ a0 then some 0xFFFFFFFFFFFFFFFF
  else
    let b0 := b >>> 32
    let z := if b0 <<< 32 ≤ a0 then 0xFFFFFFFF00000000 else (a0 / b0) <<< 32
    let term := mul64To128 b z
    match subtractLoop 0x100000000 b0 ((b <<< 32) % 2 ^ 64) fuel z (sub128 a0 a1 term.1 term.2) with
    | none => none
    | some (z, rem) =>
      let rem0 := ((rem.1 <<< 32) % 2 ^ 64) ||| (rem.2 >>> 32)
      some (z ||| if b0 <<< 32 ≤ rem0 then 0xFFFFFFFF else rem0 / b0)

/-- A quotient that is too large by `k` is corrected in `k` steps. -/
theorem subtractLoop_spec (step N d0 d1 k fuel q : ℕ) (rem : ℕ × ℕ) (hd : 0 < pair128 (d0, d1)) (hd1 : d1 < 2 ^ 64)
    (hbig : pair128 (d0, d1) < 2 ^ 97) (hfuel : k < fuel) (hk : k ≤ 4)
    (hq : q + k * step < 2 ^ 64) (hstep : step < 2 ^ 64) (hrem : rem.2 < 2 ^ 64)
    (heq : pair128 rem = (N % pair128 (d0, d1) + 2 ^ 128 - k * pair128 (d0, d1)) % 2 ^ 128) :
    ∃ rem', subtractLoop step d0 d1 fuel (q + k * step) rem = some (q, rem') ∧
      pair128 rem' = N % pair128 (d0, d1) ∧ rem'.2 < 2 ^ 64 := by
  have hmod := Nat.mod_lt N hd
  generalize hD : pair128 (d0, d1) = D at *
  induction k generalizing fuel rem with
  | zero =>
    obtain ⟨fuel, rfl⟩ : ∃ f, fuel = f + 1 := ⟨fuel - 1, by omega⟩
    rw [Nat.zero_mul, Nat.sub_zero, Nat.add_mod_right, Nat.mod_eq_of_lt (by omega)] at heq
    refine ⟨rem, ?_, heq, hrem⟩
    rw [subtractLoop, if_neg, Nat.zero_mul, Nat.add_zero]
    rw [pair128] at heq
    omega
  | succ k ih =>
    obtain ⟨fuel, rfl⟩ : ∃ f, fuel = f + 1 := ⟨fuel - 1, by omega⟩
    have hkD : (k + 1) * D ≤ 4 * D := Nat.mul_le_mul_right _ hk
    have hsucc : (k + 1) * D = k * D + D := Nat.succ_mul k D
    have hsteps : (k + 1) * step = k * step + step := Nat.succ_mul k step
    -- the remainder is negative by as many divisors
    rw [Nat.mod_eq_of_lt (by omega)] at heq
    have hneg : 2 ^ 63 ≤ rem.1 := by
      rw [pair128] at heq
      omega
    rw [subtractLoop, if_pos hneg]
    have hz : (q + (k + 1) * step + 2 ^ 64 - step) % 2 ^ 64 = q + k * step := by omega
    rw [hz]
    refine ih fuel (add128 rem.1 rem.2 d0 d1) (by omega) (by omega) (by omega) ?_ ?_
    · exact Nat.mod_lt _ (by norm_num)
    · rw [add128_eq hrem hd1, hD, heq]
      congr 1
      omega

/-- One digit of a quotient, from the upper digits of both numbers: too large by two at most. -/
theorem digit_estimate {B N b0 bl : ℕ} (hb0 : B ≤ 2 * b0) (hb0' : b0 < B) (hbl : bl < B)
    (hN : N < (b0 * B + bl) * B) :
    N / (b0 * B + bl) ≤ (if b0 * B ≤ N / B then B - 1 else N / B / b0) ∧
      (if b0 * B ≤ N / B then B - 1 else N / B / b0) ≤ N / (b0 * B + bl) + 2 ∧
      (if b0 * B ≤ N / B then B - 1 else N / B / b0) < B := by
  have hpos : 0 < b0 := by omega
  have hBpos : 0 < B := by omega
  have hb : 0 < b0 * B + bl := by positivity
  -- both branches are the smaller one of two numbers
  have hmin : (if b0 * B ≤ N / B then B - 1 else N / B / b0) = min (B - 1) (N / B / b0) := by
    split_ifs with h
    · have : B ≤ N / B / b0 := (Nat.le_div_iff_mul_le hpos).mpr (by rwa [Nat.mul_comm])
      omega
    · have : N / B / b0 < B := (Nat.div_lt_iff_lt_mul hpos).mpr (by rw [Nat.mul_comm]; omega)
      omega
  have hQ : N / (b0 * B + bl) < B := (Nat.div_lt_iff_lt_mul hb).mpr (by rwa [Nat.mul_comm])
  have hQle : N / (b0 * B + bl) ≤ N / B / b0 := by
    rw [Nat.div_div_eq_div_mul, Nat.mul_comm B]
    exact Nat.div_le_div_left (by omega) (by positivity)
  rw [hmin]
  refine ⟨by omega, ?_, by omega⟩
  by_contra hcon
  generalize hest : min (B - 1) (N / B / b0) = est at *
  have hest' : est * (b0 * B) ≤ N := by
    have : est ≤ N / (B * b0) := by rw [← Nat.div_div_eq_div_mul]; omega
    rw [Nat.mul_comm b0]
    exact (Nat.le_div_iff_mul_le (by positivity)).mp this
  have hup : N < (N / (b0 * B + bl) + 1) * (b0 * B + bl) :=
    (Nat.div_lt_iff_lt_mul hb).mp (Nat.lt_succ_self _)
  generalize N / (b0 * B + bl) = Q at *
  obtain ⟨e, rfl⟩ : ∃ e, est = Q + 3 + e := ⟨est - Q - 3, by omega⟩
  have h1 : (Q + 1) * (b0 * B + bl) ≤ (Q + 1) * (b0 * B) + (Q + 1) * B := by
    rw [Nat.mul_add]
    exact Nat.add_le_add_left (Nat.mul_le_mul_left _ hbl.le) _
  have h2 : (Q + 3 + e) * (b0 * B) = (Q + 1) * (b0 * B) + (2 * b0 + e * b0) * B := by ring
  have h3 : (Q + 1) * B ≤ (2 * b0 + e * b0) * B := Nat.mul_le_mul_right _ (by omega)
  omega

/-- What is left when a number times the divisor is taken from the dividend. -/
theorem remainder_words {a0 a1 d h N D k : ℕ} (ha0 : a0 < 2 ^ 64) (ha1 : a1 < 2 ^ 64) (hd : d < 2 ^ 64)
    (hh : h < 2 ^ 64) (hN : pair128 (a0, a1) = N) (hD : d * h = D * (N / D) + k * D) :
    pair128 (sub128 a0 a1 (mul64To128 d h).1 (mul64To128 d h).2) = (N % D + 2 ^ 128 - k * D) % 2 ^ 128 := by
  have hbound : d * h < 2 ^ 128 := by
    calc d * h < 2 ^ 64 * 2 ^ 64 := Nat.mul_lt_mul'' hd hh
      _ = 2 ^ 128 := rfl
  have hdiv := Nat.div_add_mod N D
  rw [mul64To128_eq hd hh, sub128_eq (by omega) ha1 (by dsimp only; omega) (by dsimp only; omega), hN]
  have hpair : pair128 (d * h / 2 ^ 64, d * h % 2 ^ 64) = d * h := by
    rw [pair128]
    dsimp only
    omega
  rw [hpair, hD]
  rw [hD] at hbound
  generalize D * (N / D) = u at *
  generalize k * D = v at *
  congr 1
  omega

/-- The first digit, after it is corrected, and the remainder for the second one. -/
theorem upper_digit {fuel a0 a1 b : ℕ} (hfuel : 3 ≤ fuel) (hb : 2 ^ 63 ≤ b) (hb' : b < 2 ^ 64) (ha0 : a0 < b)
    (ha1 : a1 < 2 ^ 64) : ∃ rem,
      subtractLoop 0x100000000 (b >>> 32) ((b <<< 32) % 2 ^ 64) fuel
        ((if (b >>> 32) * 2 ^ 32 ≤ a0 then 2 ^ 32 - 1 else a0 / (b >>> 32)) * 2 ^ 32)
        (sub128 a0 a1 (mul64To128 b ((if (b >>> 32) * 2 ^ 32 ≤ a0 then 2 ^ 32 - 1 else a0 / (b >>> 32)) * 2 ^ 32)).1
          (mul64To128 b ((if (b >>> 32) * 2 ^ 32 ≤ a0 then 2 ^ 32 - 1 else a0 / (b >>> 32)) * 2 ^ 32)).2)
        = some (pair128 (a0, a1) / (b * 2 ^ 32) * 2 ^ 32, rem) ∧
      pair128 rem = pair128 (a0, a1) % (b * 2 ^ 32) ∧ rem.2 < 2 ^ 64 := by
  have hsplit : b = (b >>> 32) * 2 ^ 32 + b % 2 ^ 32 := by rw [Nat.shiftRight_eq_div_pow]; omega
  have hb0 : 2 ^ 31 ≤ b >>> 32 := by rw [Nat.shiftRight_eq_div_pow]; omega
  have hb0' : b >>> 32 < 2 ^ 32 := by rw [Nat.shiftRight_eq_div_pow]; omega
  have hbl : b % 2 ^ 32 < 2 ^ 32 := Nat.mod_lt _ (by norm_num)
  have hD : pair128 (b >>> 32, (b <<< 32) % 2 ^ 64) = b * 2 ^ 32 := by
    rw [pair128, Nat.shiftRight_eq_div_pow, Nat.shiftLeft_eq]
    dsimp only
    omega
  generalize hA : pair128 (a0, a1) = N
  have hdigits : N / 2 ^ 32 / 2 ^ 32 = a0 := by
    rw [← hA, pair128]
    omega
  have hnum : N / 2 ^ 32 < b * 2 ^ 32 := by
    rw [← hA, pair128]
    omega
  obtain ⟨hle, hge, hlt⟩ := digit_estimate (N := N / 2 ^ 32) (by omega) hb0' hbl (by rwa [← hsplit])
  rw [← hsplit, hdigits, Nat.div_div_eq_div_mul, Nat.mul_comm (2 ^ 32)] at hle hge
  rw [hdigits] at hlt
  generalize (if (b >>> 32) * 2 ^ 32 ≤ a0 then 2 ^ 32 - 1 else a0 / (b >>> 32)) = h at *
  obtain ⟨k, rfl⟩ : ∃ k, h = N / (b * 2 ^ 32) + k := ⟨h - N / (b * 2 ^ 32), by omega⟩
  have hz : (N / (b * 2 ^ 32) + k) * 2 ^ 32 = N / (b * 2 ^ 32) * 2 ^ 32 + k * 0x100000000 := by ring
  have hrem := remainder_words (D := b * 2 ^ 32) (k := k) (ha0.trans hb') ha1 hb'
    (show (N / (b * 2 ^ 32) + k) * 2 ^ 32 < 2 ^ 64 by omega) hA (by ring)
  have hloop := subtractLoop_spec 0x100000000 N (b >>> 32) ((b <<< 32) % 2 ^ 64) k fuel (N / (b * 2 ^ 32) * 2 ^ 32)
    (sub128 a0 a1 (mul64To128 b ((N / (b * 2 ^ 32) + k) * 2 ^ 32)).1
      (mul64To128 b ((N / (b * 2 ^ 32) + k) * 2 ^ 32)).2)
  rw [hD, ← hz] at hloop
  exact hloop (by omega) (Nat.mod_lt _ (by norm_num)) (by omega) (by omega) (by omega) (by omega) (by norm_num)
    (Nat.mod_lt _ (by norm_num)) hrem

/-- The second digit, from the remainder. -/
theorem lower_digit {b : ℕ} {rem : ℕ × ℕ} (hb : 2 ^ 63 ≤ b) (hb' : b < 2 ^ 64) (hrem : rem.2 < 2 ^ 64)
    (hlt : pair128 rem < b * 2 ^ 32) :
    let rem0 := ((rem.1 <<< 32) % 2 ^ 64) ||| (rem.2 >>> 32)
    let digit := if (b >>> 32) <<< 32 ≤ rem0 then 0xFFFFFFFF else rem0 / (b >>> 32)
    pair128 rem / b ≤ digit ∧ digit ≤ pair128 rem / b + 2 ∧ digit < 2 ^ 32 := by
  intro rem0 digit
  have hsplit : b = (b >>> 32) * 2 ^ 32 + b % 2 ^ 32 := by rw [Nat.shiftRight_eq_div_pow]; omega
  have hb0 : 2 ^ 31 ≤ b >>> 32 := by rw [Nat.shiftRight_eq_div_pow]; omega
  have hb0' : b >>> 32 < 2 ^ 32 := by rw [Nat.shiftRight_eq_div_pow]; omega
  have h := digit_estimate (B := 2 ^ 32) (N := pair128 rem) (by omega) hb0'
    (show b % 2 ^ 32 < 2 ^ 32 from Nat.mod_lt _ (by norm_num)) (by rwa [← hsplit])
  have hrem0 : rem0 = pair128 rem / 2 ^ 32 := by
    have h0 : rem.1 < 2 ^ 32 := by
      rw [pair128] at hlt
      omega
    show ((rem.1 <<< 32) % 2 ^ 64) ||| (rem.2 >>> 32) = _
    rw [Nat.shiftLeft_eq, Nat.mod_eq_of_lt (by omega), Nat.shiftRight_eq_div_pow, ← Nat.shiftLeft_eq,
      ← Nat.shiftLeft_add_eq_or_of_lt (by omega), Nat.shiftLeft_eq, pair128]
    omega
  rw [← hsplit, ← hrem0, ← Nat.shiftLeft_eq] at h
  exact h

/-- The estimate is the quotient, or larger by one or two. -/
theorem estimateDiv128To64_spec {fuel a0 a1 b : ℕ} (hfuel : 3 ≤ fuel) (hb : 2 ^ 63 ≤ b) (hb' : b < 2 ^ 64)
    (ha0 : a0 < b) (ha1 : a1 < 2 ^ 64) :
    ∃ z, estimateDiv128To64 fuel a0 a1 b = some z ∧ pair128 (a0, a1) / b ≤ z ∧ z ≤ pair128 (a0, a1) / b + 2 := by
  obtain ⟨rem, hloop, hrem, hrem1⟩ := upper_digit hfuel hb hb' ha0 ha1
  have hpos : 0 < b * 2 ^ 32 := by omega
  have hlt : pair128 rem < b * 2 ^ 32 := hrem ▸ Nat.mod_lt _ hpos
  obtain ⟨hle, hge, hdigit⟩ := lower_digit hb hb' hrem1 hlt
  have hz : (if (b >>> 32) <<< 32 ≤ a0 then 0xFFFFFFFF00000000 else (a0 / (b >>> 32)) <<< 32)
      = (if (b >>> 32) * 2 ^ 32 ≤ a0 then 2 ^ 32 - 1 else a0 / (b >>> 32)) * 2 ^ 32 := by
    rw [Nat.shiftLeft_eq, Nat.shiftLeft_eq]
    split_ifs <;> rfl
  -- both digits of the quotient
  have hq : pair128 (a0, a1) / b = pair128 (a0, a1) / (b * 2 ^ 32) * 2 ^ 32 + pair128 rem / b := by
    have hdiv := Nat.div_add_mod (pair128 (a0, a1)) (b * 2 ^ 32)
    rw [← hrem] at hdiv
    conv_lhs => rw [← hdiv, Nat.mul_assoc, Nat.mul_add_div (by omega), Nat.mul_comm]
  unfold estimateDiv128To64
  rw [if_neg (by omega)]
  simp only [hz, hloop]
  refine ⟨_, rfl, ?_⟩
  rw [← Nat.shiftLeft_eq, ← Nat.shiftLeft_add_eq_or_of_lt hdigit, Nat.shiftLeft_eq, hq]
  omega

end Umeq.Fpu
