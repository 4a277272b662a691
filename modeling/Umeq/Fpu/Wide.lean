import Umeq.Fpu.Format
import Umeq.Fpu.Macros

/-! # Words of twice the width

    `float32_muladd` and `float64_muladd` are the same steps on significands of twice the width of
    the format: one word of 64 bits, or two of them that `softfloat-macros.h` puts together.

    * `shift128RightJamming_eq`: the shift of two words, with its sticky bit.
    * `wide`: the significands of both functions; each operation has its lemma about `wide.val`.
-/

namespace Umeq.Fpu

open Rounding

/-! ## Two words -/

def shortShift128Left (a0 a1 count : ℕ) : ℕ × ℕ :=
  (if count = 0 then a0 else ((a0 <<< count) % 2 ^ 64) ||| (a1 >>> (64 - count)), (a1 <<< count) % 2 ^ 64)

def shift128RightJamming (a0 a1 count : ℕ) : ℕ × ℕ :=
  let negCount := (64 - count % 64) % 64
  if count = 0 then (a0, a1)
  else if count < 64 then
    (a0 >>> count, ((a0 <<< negCount) % 2 ^ 64) ||| (a1 >>> count) |||
      if (a1 <<< negCount) % 2 ^ 64 ≠ 0 then 1 else 0)
  else
    (0, if count = 64 then a0 ||| if a1 ≠ 0 then 1 else 0
      else if count < 128 then
        (a0 >>> (count % 64)) ||| if ((a0 <<< negCount) % 2 ^ 64) ||| a1 ≠ 0 then 1 else 0
      else if a0 ||| a1 ≠ 0 then 1 else 0)

def lt128 (a0 a1 b0 b1 : ℕ) : Bool := a0 < b0 || (a0 == b0 && a1 < b1)

theorem lt128_iff {a0 a1 b0 b1 : ℕ} (ha : a1 < 2 ^ 64) (hb : b1 < 2 ^ 64) :
    lt128 a0 a1 b0 b1 = true ↔ pair128 (a0, a1) < pair128 (b0, b1) := by
  simp only [lt128, pair128, Bool.or_eq_true, Bool.and_eq_true, decide_eq_true_eq, beq_iff_eq]
  omega

/-- The bits that a shift to the left keeps, when it is a shift to the right by what is missing. -/
theorem lost_bits (a : ℕ) {n : ℕ} (hn : n ≤ 64) : (a <<< (64 - n)) % 2 ^ 64 = a % 2 ^ n * 2 ^ (64 - n) := by
  rw [Nat.shiftLeft_eq, show 2 ^ 64 = 2 ^ n * 2 ^ (64 - n) by rw [← pow_add, Nat.add_sub_cancel' hn],
    Nat.mul_mod_mul_right]

/-- A bit that is or-ed into the lower word. -/
theorem pair128_or {z0 z1 b : ℕ} (h1 : z1 < 2 ^ 64) (hb : b < 2 ^ 64) :
    pair128 (z0, z1 ||| b) = pair128 (z0, z1) ||| b := by
  simp only [pair128]
  rw [← Nat.shiftLeft_eq, Nat.shiftLeft_add_eq_or_of_lt (Nat.or_lt_two_pow h1 hb),
    Nat.shiftLeft_add_eq_or_of_lt h1, Nat.or_assoc]

theorem sticky_bit_lt {p : Prop} [Decidable p] : (if p then 1 else 0 : ℕ) < 2 ^ 64 := by
  split_ifs <;> norm_num

/-- Two words are shifted by less than a word. -/
theorem pair128_shift {a0 a1 n : ℕ} (h1 : a1 < 2 ^ 64) (hn : n < 64) :
    ((a0 <<< (64 - n)) % 2 ^ 64) ||| (a1 >>> n) < 2 ^ 64 ∧
      pair128 (a0 >>> n, ((a0 <<< (64 - n)) % 2 ^ 64) ||| (a1 >>> n)) = pair128 (a0, a1) / 2 ^ n ∧
      pair128 (a0, a1) % 2 ^ n = a1 % 2 ^ n := by
  have hsplit : 2 ^ 64 = 2 ^ (64 - n) * 2 ^ n := by rw [← pow_add, Nat.sub_add_cancel hn.le]
  have hlow : a1 >>> n < 2 ^ (64 - n) := by
    rw [Nat.shiftRight_eq_div_pow]
    exact Nat.div_lt_of_lt_mul (by rwa [Nat.mul_comm, ← hsplit])
  have hhigh : a0 % 2 ^ n < 2 ^ n := Nat.mod_lt _ (by positivity)
  have hor : ((a0 <<< (64 - n)) % 2 ^ 64) ||| (a1 >>> n) = a0 % 2 ^ n * 2 ^ (64 - n) + a1 >>> n := by
    rw [lost_bits a0 hn.le, ← Nat.shiftLeft_eq, ← Nat.shiftLeft_add_eq_or_of_lt hlow, Nat.shiftLeft_eq]
  rw [hor]
  refine ⟨?_, ?_, ?_⟩
  · calc a0 % 2 ^ n * 2 ^ (64 - n) + a1 >>> n < (a0 % 2 ^ n + 1) * 2 ^ (64 - n) := by rw [Nat.succ_mul]; omega
      _ ≤ 2 ^ n * 2 ^ (64 - n) := Nat.mul_le_mul_right _ hhigh
      _ = 2 ^ 64 := by rw [Nat.mul_comm, ← hsplit]
  · -- the bits that leave the upper word enter the lower one
    have hparts : pair128 (a0, a1) = a1 + a0 * 2 ^ (64 - n) * 2 ^ n := by
      rw [pair128, Nat.mul_assoc, ← hsplit, Nat.add_comm]
    rw [hparts, Nat.add_mul_div_right _ _ (by positivity), pair128]
    simp only [Nat.shiftRight_eq_div_pow]
    have ha0 : a0 = a0 / 2 ^ n * 2 ^ n + a0 % 2 ^ n := (Nat.div_add_mod' a0 (2 ^ n)).symm
    calc a0 / 2 ^ n * 2 ^ 64 + (a0 % 2 ^ n * 2 ^ (64 - n) + a1 / 2 ^ n)
        = (a0 / 2 ^ n * 2 ^ n + a0 % 2 ^ n) * 2 ^ (64 - n) + a1 / 2 ^ n := by rw [hsplit]; ring
      _ = a1 / 2 ^ n + a0 * 2 ^ (64 - n) := by rw [← ha0, Nat.add_comm]
  · rw [pair128, hsplit, ← Nat.mul_assoc, Nat.add_comm]
    exact Nat.add_mul_mod_self_right _ _ _

/-- The shift of two words, by any count. -/
theorem shift128RightJamming_eq {a0 a1 : ℕ} (h0 : a0 < 2 ^ 64) (h1 : a1 < 2 ^ 64) (count : ℕ) :
    (shift128RightJamming a0 a1 count).1 < 2 ^ 64 ∧ (shift128RightJamming a0 a1 count).2 < 2 ^ 64 ∧
      pair128 (shift128RightJamming a0 a1 count) = jam (pair128 (a0, a1)) count := by
  unfold shift128RightJamming
  dsimp only
  by_cases hzero : count = 0
  · rw [if_pos hzero, hzero, jam_of_dvd (Nat.mod_one _), pow_zero, Nat.div_one]
    exact ⟨h0, h1, rfl⟩
  rw [if_neg hzero]
  by_cases hlt : count < 64
  · -- less than a word
    have hneg : (64 - count % 64) % 64 = 64 - count := by omega
    obtain ⟨hword, hpair, hrest⟩ := @pair128_shift a0 a1 count h1 hlt
    have hup : a0 >>> count < 2 ^ 64 := by
      rw [Nat.shiftRight_eq_div_pow]
      exact (Nat.div_le_self _ _).trans_lt h0
    rw [if_pos hlt, hneg]
    refine ⟨hup, Nat.or_lt_two_pow hword sticky_bit_lt, ?_⟩
    rw [pair128_or hword sticky_bit_lt, hpair, jam, sticky, hrest, lost_bits a1 hlt.le]
    have hpos : 0 < 2 ^ (64 - count) := by positivity
    have hiff : a1 % 2 ^ count * 2 ^ (64 - count) = 0 ↔ a1 % 2 ^ count = 0 := by
      rw [Nat.mul_eq_zero, or_iff_left hpos.ne']
    simp only [ne_eq, hiff, ite_not]
  rw [if_neg hlt]
  have hone : ∀ w : ℕ, pair128 (0, w) = w := by
    intro w
    rw [pair128, Nat.zero_mul, Nat.zero_add]
  rw [hone]
  -- a word at least: it is what is left of the upper one
  obtain ⟨d, rfl⟩ : ∃ d, count = 64 + d := ⟨count - 64, by omega⟩
  have hdiv : pair128 (a0, a1) / 2 ^ (64 + d) = a0 / 2 ^ d := by
    rw [pow_add, ← Nat.div_div_eq_div_mul, pair128]
    congr 1
    omega
  have hmod : pair128 (a0, a1) % 2 ^ (64 + d) = a0 % 2 ^ d * 2 ^ 64 + a1 := by
    rw [pow_add, Nat.mod_mul, pair128]
    have hw1 : (a0 * 2 ^ 64 + a1) % 2 ^ 64 = a1 := by omega
    have hw0 : (a0 * 2 ^ 64 + a1) / 2 ^ 64 = a0 := by omega
    dsimp only
    rw [hw1, hw0, Nat.add_comm, Nat.mul_comm]
  have hrest : a0 % 2 ^ d * 2 ^ 64 + a1 = 0 ↔ a0 % 2 ^ d = 0 ∧ a1 = 0 := by omega
  have hjam : jam (pair128 (a0, a1)) (64 + d) = a0 / 2 ^ d ||| if a0 % 2 ^ d = 0 ∧ a1 = 0 then 0 else 1 := by
    rw [jam, sticky, hdiv, hmod]
    simp only [hrest]
  have hlost : (a0 / 2 ^ d ||| if a0 % 2 ^ d = 0 ∧ a1 = 0 then 0 else 1) < 2 ^ 64 :=
    Nat.or_lt_two_pow ((Nat.div_le_self _ _).trans_lt h0) (by split_ifs <;> norm_num)
  have hdone : ∀ w : ℕ, w = (a0 / 2 ^ d ||| if a0 % 2 ^ d = 0 ∧ a1 = 0 then 0 else 1) →
      (0, w).1 < 2 ^ 64 ∧ (0, w).2 < 2 ^ 64 ∧ w = (a0 / 2 ^ d ||| if a0 % 2 ^ d = 0 ∧ a1 = 0 then 0 else 1) :=
    fun w hw => ⟨by norm_num, hw ▸ hlost, hw⟩
  rw [hjam]
  apply hdone
  by_cases hd : d = 0
  · subst hd
    simp [Nat.mod_one]
  rw [if_neg (by omega)]
  by_cases hin : 64 + d < 128
  · have hneg : (64 - (64 + d) % 64) % 64 = 64 - d := by omega
    have hcount : (64 + d) % 64 = d := by omega
    rw [if_pos hin, hneg, hcount, Nat.shiftRight_eq_div_pow, lost_bits a0 (by omega)]
    have hpos : 0 < 2 ^ (64 - d) := by positivity
    have hiff : a0 % 2 ^ d * 2 ^ (64 - d) ||| a1 = 0 ↔ a0 % 2 ^ d = 0 ∧ a1 = 0 := by
      rw [Nat.or_eq_zero_iff, Nat.mul_eq_zero, or_iff_left hpos.ne']
    simp only [ne_eq, hiff, ite_not]
  · -- all bits go out
    have hbig : a0 < 2 ^ d := h0.trans_le (Nat.pow_le_pow_right (by norm_num) (by omega))
    rw [if_neg hin, Nat.mod_eq_of_lt hbig, Nat.div_eq_of_lt hbig, Nat.zero_or]
    simp only [ne_eq, Nat.or_eq_zero_iff, ite_not]

/-- A shift to the left that loses nothing. -/
theorem shortShift128Left_eq {a0 a1 count : ℕ} (h1 : a1 < 2 ^ 64) (hcount : count < 64)
    (hfit : pair128 (a0, a1) * 2 ^ count < 2 ^ 128) :
    (shortShift128Left a0 a1 count).1 < 2 ^ 64 ∧ (shortShift128Left a0 a1 count).2 < 2 ^ 64 ∧
      pair128 (shortShift128Left a0 a1 count) = pair128 (a0, a1) * 2 ^ count := by
  unfold shortShift128Left
  by_cases hzero : count = 0
  · subst hzero
    simp only [pair128, pow_zero, Nat.mul_one] at hfit
    rw [if_pos rfl, Nat.shiftLeft_zero, Nat.mod_eq_of_lt h1, pow_zero, Nat.mul_one]
    exact ⟨by omega, h1, rfl⟩
  have hsplit : 2 ^ 64 = 2 ^ (64 - count) * 2 ^ count := by rw [← pow_add, Nat.sub_add_cancel hcount.le]
  have hpos : 0 < 2 ^ count := by positivity
  -- what the lower word loses is less than the upper one makes room for
  have hcarry : a1 >>> (64 - count) < 2 ^ count := by
    rw [Nat.shiftRight_eq_div_pow]
    exact Nat.div_lt_of_lt_mul (by rwa [← hsplit])
  have hlow : (a1 <<< count) % 2 ^ 64 = a1 % 2 ^ (64 - count) * 2 ^ count := by
    rw [Nat.shiftLeft_eq, hsplit, Nat.mul_mod_mul_right]
  have hparts : a1 * 2 ^ count = a1 / 2 ^ (64 - count) * 2 ^ 64 + a1 % 2 ^ (64 - count) * 2 ^ count := by
    conv_lhs => rw [← Nat.div_add_mod' a1 (2 ^ (64 - count))]
    rw [Nat.add_mul, Nat.mul_assoc, ← hsplit]
  have hexpand : pair128 (a0, a1) * 2 ^ count = a0 * 2 ^ count * 2 ^ 64 + a1 * 2 ^ count := by
    rw [pair128]
    ring
  have hfit0 : a0 * 2 ^ count < 2 ^ 64 := by
    rw [hexpand] at hfit
    omega
  rw [if_neg hzero, hlow, Nat.shiftLeft_eq, Nat.mod_eq_of_lt hfit0, ← Nat.shiftLeft_eq,
    ← Nat.shiftLeft_add_eq_or_of_lt hcarry, Nat.shiftLeft_eq, Nat.shiftRight_eq_div_pow]
  have hword : a1 % 2 ^ (64 - count) * 2 ^ count < 2 ^ 64 := by
    rw [← hlow]
    exact Nat.mod_lt _ (by norm_num)
  rw [hexpand, hparts] at hfit ⊢
  refine ⟨by omega, hword, ?_⟩
  rw [pair128]
  ring

theorem pair128_lt {z : ℕ × ℕ} (h0 : z.1 < 2 ^ 64) (h1 : z.2 < 2 ^ 64) : pair128 z < 2 ^ 128 := by
  rw [pair128]
  omega

/-! ## One word or two -/

/-- What the two functions do with significands of twice the width, of a type `W`. -/
structure wide (W : Type) where
  /-- The product of two significands. -/
  product : ℕ → ℕ → W
  /-- The sign, after a shift by one, of the word or of the upper word. -/
  second_bit : W → Bool
  /-- A shift by one. -/
  double : W → W
  /-- The significand of the addend, with its explicit bit. -/
  addend : ℕ → W
  rightJamming : W → ℕ → W
  add : W → W → W
  sub : W → W → W
  lt : W → W → Bool
  /-- The sign of the word or of the upper word. -/
  upper_bit : W → Bool
  /-- What is rounded and packed: the upper half, with a sticky bit. -/
  upper : W → ℕ
  /-- After a subtraction: the shift that puts the explicit bit back, and the upper half. -/
  normalized : W → ℤ × ℕ

/-- The words of `float32_muladd`. -/
def wide32 : wide ℕ where
  product aSig bSig := (aSig * bSig) % 2 ^ 64
  second_bit z := 2 ^ 63 ≤ (z <<< 1) % 2 ^ 64
  double z := (z <<< 1) % 2 ^ 64
  addend cSig := ((cSig <<< (62 - 23)) % 2 ^ 64) ||| 0x4000000000000000
  rightJamming := shift64RightJamming
  add y z := (y + z) % 2 ^ 64
  sub y z := (y + 2 ^ 64 - z) % 2 ^ 64
  lt y z := y < z
  upper_bit z := 2 ^ 63 ≤ z
  upper z := shift64RightJamming z 32 % 2 ^ 32
  normalized z :=
    let shiftcount : ℤ := countLeadingZeros 64 z - 1
    (shiftcount, shift64RightJamming ((z <<< shiftcount.toNat) % 2 ^ 64) 32 % 2 ^ 32)

/-- The pairs of words of `float64_muladd`. -/
def wide64 : wide (ℕ × ℕ) where
  product aSig bSig := mul64To128 aSig bSig
  second_bit z := 2 ^ 63 ≤ (z.1 <<< 1) % 2 ^ 64
  double z := shortShift128Left z.1 z.2 1
  addend cSig := (((cSig <<< (126 - 64 - 52)) % 2 ^ 64) ||| 0x4000000000000000, 0)
  rightJamming z count := shift128RightJamming z.1 z.2 count
  add y z := add128 y.1 y.2 z.1 z.2
  sub y z := sub128 y.1 y.2 z.1 z.2
  lt y z := lt128 y.1 y.2 z.1 z.2
  upper_bit z := 2 ^ 63 ≤ z.1
  upper z := (shift128RightJamming z.1 z.2 64).2
  normalized z :=
    if z.1 ≠ 0 then
      let shiftcount : ℤ := countLeadingZeros 64 z.1 - 1
      let z := shortShift128Left z.1 z.2 shiftcount.toNat
      (shiftcount, if z.2 ≠ 0 then z.1 ||| 1 else z.1)
    else
      let shiftcount := countLeadingZeros 64 z.2
      if shiftcount = 0 then (63, (z.2 >>> 1) ||| (z.2 &&& 1))
      else ((shiftcount - 1 : ℕ) + 64, (z.2 <<< (shiftcount - 1)) % 2 ^ 64)

/-- The significands are numbers, and the operations the ones of numbers. -/
structure Exact (F : float_format) {W : Type} (ops : wide W) (Fits : W → Prop) (val : W → ℕ) : Prop where
  product {A B : ℕ} : A < 2 ^ F.width → B < 2 ^ F.width →
    Fits (ops.product A B) ∧ val (ops.product A B) = A * B
  double {z : W} : Fits z → val z < 2 ^ (2 * F.width - 1) →
    Fits (ops.double z) ∧ val (ops.double z) = val z * 2 ∧
      (ops.second_bit z = true ↔ 2 ^ (2 * F.width - 2) ≤ val z)
  addend {s : ℕ} : s < 2 ^ F.precision →
    Fits (ops.addend s) ∧ val (ops.addend s) = (s ||| 2 ^ F.frac_bits) * 2 ^ (2 * F.width - 2 - F.frac_bits)
  rightJamming {z : W} : Fits z → ∀ count,
    Fits (ops.rightJamming z count) ∧ val (ops.rightJamming z count) = jam (val z) count
  add {y z : W} : Fits y → Fits z → val y + val z < 2 ^ (2 * F.width) →
    Fits (ops.add y z) ∧ val (ops.add y z) = val y + val z
  sub {y z : W} : Fits y → Fits z → val z ≤ val y →
    Fits (ops.sub y z) ∧ val (ops.sub y z) = val y - val z
  lt {y z : W} : Fits y → Fits z → (ops.lt y z = true ↔ val y < val z)
  upper_bit {z : W} : Fits z → (ops.upper_bit z = true ↔ 2 ^ (2 * F.width - 1) ≤ val z)
  upper {z : W} : Fits z → val z < 2 ^ (2 * F.width - 1) → ops.upper z = jam (val z) F.width
  normalized {z : W} : Fits z → val z ≠ 0 → val z < 2 ^ (2 * F.width - 1) →
    ∃ n : ℕ, 2 ^ (2 * F.width - 2) ≤ val z * 2 ^ n ∧ val z * 2 ^ n < 2 ^ (2 * F.width - 1) ∧
      ops.normalized z = ((n : ℤ), jam (val z * 2 ^ n) F.width)

/-! ## The operations of one word -/

theorem sub_mod {y z n : ℕ} (hle : z ≤ y) (hlt : y < n) : (y + n - z) % n = y - z := by
  rw [show y + n - z = (y - z) + n by omega, Nat.add_mod_right, Nat.mod_eq_of_lt (by omega)]

theorem word_sub {y z : ℕ} (hy : y < 2 ^ 64) (hle : z ≤ y) :
    wide32.sub y z < 2 ^ 64 ∧ wide32.sub y z = y - z := by
  have h : wide32.sub y z = y - z := by
    simp only [wide32]
    exact sub_mod hle hy
  rw [h]
  exact ⟨by omega, rfl⟩

theorem word_double {z : ℕ} (hlt : z < 2 ^ 63) : (z <<< 1) % 2 ^ 64 < 2 ^ 64 ∧ (z <<< 1) % 2 ^ 64 = z * 2 ∧
    (2 ^ 63 ≤ (z <<< 1) % 2 ^ 64 ↔ 2 ^ 62 ≤ z) := by
  rw [Nat.shiftLeft_eq]
  omega

theorem word_upper {z : ℕ} (hlt : z < 2 ^ 63) : shift64RightJamming z 32 % 2 ^ 32 = jam z 32 := by
  have hjam : jam z 32 < 2 ^ 32 := jam_lt (by omega) (by norm_num)
  rw [shift64RightJamming, shiftRightJamming_eq (by omega), Nat.mod_eq_of_lt hjam]

/-- Below the upper bit a word has a leading zero at least. -/
theorem leading_zeros {w z : ℕ} (hw : 2 ≤ w) (hne : z ≠ 0) (hlt : z < 2 ^ (w - 1)) :
    ∃ n : ℕ, countLeadingZeros w z = n + 1 ∧ 2 ^ (w - 2) ≤ z * 2 ^ n ∧ z * 2 ^ n < 2 ^ (w - 1) := by
  obtain ⟨v, rfl⟩ : ∃ v, w = v + 2 := ⟨w - 2, by omega⟩
  have hhalf : 2 ^ (v + 1) = 2 * 2 ^ v := pow_succ' 2 v
  have hfull : 2 ^ (v + 2) = 2 * 2 ^ (v + 1) := pow_succ' 2 (v + 1)
  have hlt' : z < 2 ^ (v + 1) := hlt
  obtain ⟨-, hlow, hhigh⟩ := countLeadingZeros_spec hne (show z < 2 ^ (v + 2) by omega)
  have hpos : 1 ≤ countLeadingZeros (v + 2) z := by
    by_contra hcon
    have hzero : countLeadingZeros (v + 2) z = 0 := by omega
    rw [hzero, pow_zero, Nat.mul_one] at hlow
    exact absurd hlt (not_lt.mpr hlow)
  obtain ⟨n, hn⟩ : ∃ n, countLeadingZeros (v + 2) z = n + 1 := ⟨_, (Nat.sub_add_cancel hpos).symm⟩
  have hsplit : z * 2 ^ (n + 1) = 2 * (z * 2 ^ n) := by rw [pow_succ']; ring
  rw [hn, hsplit] at hlow hhigh
  have hlow' : 2 ^ (v + 1) ≤ 2 * (z * 2 ^ n) := hlow
  refine ⟨n, hn, ?_, ?_⟩
  · show 2 ^ v ≤ z * 2 ^ n
    omega
  · show z * 2 ^ n < 2 ^ (v + 1)
    omega

theorem word_addend {s : ℕ} (hs : s < 2 ^ 24) :
    ((s <<< (62 - 23)) % 2 ^ 64) ||| 0x4000000000000000 < 2 ^ 64 ∧
      ((s <<< (62 - 23)) % 2 ^ 64) ||| 0x4000000000000000 = (s ||| 2 ^ 23) * 2 ^ 39 := by
  have hlt : s * 2 ^ 39 < 2 ^ 64 := by omega
  rw [Nat.shiftLeft_eq, Nat.mod_eq_of_lt hlt]
  refine ⟨Nat.or_lt_two_pow hlt (by norm_num), ?_⟩
  rw [show (0x4000000000000000 : ℕ) = 2 ^ 23 * 2 ^ 39 from rfl, ← Nat.shiftLeft_eq, ← Nat.shiftLeft_eq,
    ← Nat.shiftLeft_eq, Nat.shiftLeft_or_distrib]

theorem word_normalized {z : ℕ} (hne : z ≠ 0) (hlt : z < 2 ^ 63) :
    ∃ n : ℕ, 2 ^ 62 ≤ z * 2 ^ n ∧ z * 2 ^ n < 2 ^ 63 ∧
      wide32.normalized z = ((n : ℤ), jam (z * 2 ^ n) 32) := by
  obtain ⟨n, hclz, hlow, hhigh⟩ := leading_zeros (w := 64) (by norm_num) hne hlt
  refine ⟨n, hlow, hhigh, ?_⟩
  have hshift : (countLeadingZeros 64 z : ℤ) - 1 = n := by omega
  simp only [wide32, hshift, Int.toNat_natCast, Nat.shiftLeft_eq]
  rw [Nat.mod_eq_of_lt (show z * 2 ^ n < 2 ^ 64 by omega), word_upper hhigh]

theorem exact32 : Exact .float32 wide32 (· < 2 ^ 64) id where
  product hA hB := ⟨Nat.mod_lt _ (by norm_num), Nat.mod_eq_of_lt (show _ < 2 ^ 32 * 2 ^ 32 from Nat.mul_lt_mul'' hA hB)⟩
  double _ hlt := by
    have h := word_double hlt
    exact ⟨h.1, h.2.1, decide_eq_true_iff.trans h.2.2⟩
  addend hs := word_addend hs
  rightJamming {z} hz count := by
    have heq : wide32.rightJamming z count = jam z count := shiftRightJamming_eq hz count
    have hlt : jam z count < 2 ^ 64 :=
      jam_lt (lt_of_lt_of_le hz (Nat.le_mul_of_pos_right _ (by positivity))) (by norm_num)
    exact ⟨heq.trans_lt hlt, heq⟩
  add _ _ hlt := ⟨Nat.mod_lt _ (by norm_num), Nat.mod_eq_of_lt hlt⟩
  sub {y z} hy _ hle := by
    have h := @word_sub y z hy hle
    rw [id_eq, id_eq, id_eq]
    exact h
  lt _ _ := decide_eq_true_iff
  upper_bit _ := decide_eq_true_iff
  upper _ hlt := word_upper hlt
  normalized _ hne hlt := word_normalized hne hlt

/-! ## The operations of two words -/

theorem pair_double {z : ℕ × ℕ} (h0 : z.1 < 2 ^ 64) (h1 : z.2 < 2 ^ 64) (hlt : pair128 z < 2 ^ 127) :
    ((shortShift128Left z.1 z.2 1).1 < 2 ^ 64 ∧ (shortShift128Left z.1 z.2 1).2 < 2 ^ 64) ∧
      pair128 (shortShift128Left z.1 z.2 1) = pair128 z * 2 ∧
      (2 ^ 63 ≤ (z.1 <<< 1) % 2 ^ 64 ↔ 2 ^ 126 ≤ pair128 z) := by
  obtain ⟨hup, hlow, hval⟩ := @shortShift128Left_eq z.1 z.2 1 h1 (by norm_num) (by
    show pair128 z * 2 ^ 1 < 2 ^ 128
    omega)
  refine ⟨⟨hup, hlow⟩, hval, ?_⟩
  rw [pair128] at hlt ⊢
  rw [Nat.shiftLeft_eq]
  omega

theorem pair_upper_bit {z : ℕ × ℕ} (h1 : z.2 < 2 ^ 64) :
    2 ^ 63 ≤ z.1 ↔ 2 ^ 127 ≤ pair128 z := by
  rw [pair128]
  omega

theorem pair_upper {z : ℕ × ℕ} (h0 : z.1 < 2 ^ 64) (h1 : z.2 < 2 ^ 64) :
    (shift128RightJamming z.1 z.2 64).2 = jam (pair128 z) 64 := by
  obtain ⟨-, -, heq⟩ := shift128RightJamming_eq h0 h1 64
  have hfirst : (shift128RightJamming z.1 z.2 64).1 = 0 := by simp [shift128RightJamming]
  rw [← heq, pair128, hfirst, Nat.zero_mul, Nat.zero_add]

theorem pair_product {A B : ℕ} (hA : A < 2 ^ 64) (hB : B < 2 ^ 64) :
    ((mul64To128 A B).1 < 2 ^ 64 ∧ (mul64To128 A B).2 < 2 ^ 64) ∧ pair128 (mul64To128 A B) = A * B := by
  have hlt : A * B < 2 ^ 64 * 2 ^ 64 := Nat.mul_lt_mul'' hA hB
  rw [mul64To128_eq hA hB]
  exact ⟨⟨Nat.div_lt_of_lt_mul hlt, Nat.mod_lt _ (by norm_num)⟩, Nat.div_add_mod' _ _⟩

theorem pair_addend {s : ℕ} (hs : s < 2 ^ 53) :
    (((s <<< (126 - 64 - 52)) % 2 ^ 64) ||| 0x4000000000000000 < 2 ^ 64 ∧ 0 < 2 ^ 64) ∧
      pair128 (((s <<< (126 - 64 - 52)) % 2 ^ 64) ||| 0x4000000000000000, 0) = (s ||| 2 ^ 52) * 2 ^ 74 := by
  have hlt : s * 2 ^ 10 < 2 ^ 64 := by omega
  rw [Nat.shiftLeft_eq, Nat.mod_eq_of_lt hlt]
  refine ⟨⟨Nat.or_lt_two_pow hlt (by norm_num), by norm_num⟩, ?_⟩
  have hor : s * 2 ^ 10 ||| 0x4000000000000000 = (s ||| 2 ^ 52) * 2 ^ 10 := by
    rw [show (0x4000000000000000 : ℕ) = 2 ^ 52 * 2 ^ 10 from rfl, ← Nat.shiftLeft_eq, ← Nat.shiftLeft_eq,
      ← Nat.shiftLeft_eq, Nat.shiftLeft_or_distrib]
  rw [pair128, hor]
  ring

theorem pair_add {y z : ℕ × ℕ} (hy : y.1 < 2 ^ 64 ∧ y.2 < 2 ^ 64) (hz : z.1 < 2 ^ 64 ∧ z.2 < 2 ^ 64)
    (hlt : pair128 y + pair128 z < 2 ^ 128) : pair128 (add128 y.1 y.2 z.1 z.2) = pair128 y + pair128 z := by
  rw [add128_eq hy.2 hz.2]
  exact Nat.mod_eq_of_lt hlt

theorem pair_sub {y z : ℕ × ℕ} (hy : y.1 < 2 ^ 64 ∧ y.2 < 2 ^ 64) (hz : z.1 < 2 ^ 64 ∧ z.2 < 2 ^ 64)
    (hle : pair128 z ≤ pair128 y) : pair128 (sub128 y.1 y.2 z.1 z.2) = pair128 y - pair128 z := by
  rw [sub128_eq hy.1 hy.2 hz.1 hz.2]
  exact sub_mod hle (pair128_lt hy.1 hy.2)

/-- The upper word with a sticky bit for the lower one. -/
theorem jam_word {z0 z1 : ℕ} (h1 : z1 < 2 ^ 64) :
    jam (pair128 (z0, z1)) 64 = if z1 ≠ 0 then z0 ||| 1 else z0 := by
  have hdiv : pair128 (z0, z1) / 2 ^ 64 = z0 := by
    rw [pair128]
    omega
  have hmod : pair128 (z0, z1) % 2 ^ 64 = z1 := by
    rw [pair128]
    omega
  rw [jam, sticky, hdiv, hmod]
  split_ifs <;> simp_all

theorem pair_normalized {z : ℕ × ℕ} (h0 : z.1 < 2 ^ 64) (h1 : z.2 < 2 ^ 64) (hne : pair128 z ≠ 0)
    (hlt : pair128 z < 2 ^ 127) :
    ∃ n : ℕ, 2 ^ 126 ≤ pair128 z * 2 ^ n ∧ pair128 z * 2 ^ n < 2 ^ 127 ∧
      wide64.normalized z = ((n : ℤ), jam (pair128 z * 2 ^ n) 64) := by
  obtain ⟨z0, z1⟩ := z
  dsimp only at h0 h1
  by_cases hzero : z0 = 0
  · -- the upper word is empty
    subst hzero
    have hval : pair128 (0, z1) = z1 := by rw [pair128, Nat.zero_mul, Nat.zero_add]
    rw [hval] at hne ⊢
    by_cases hclz : countLeadingZeros 64 z1 = 0
    · have hbig := (countLeadingZeros_spec hne h1).2.1
      rw [hclz, pow_zero, Nat.mul_one] at hbig
      refine ⟨63, by omega, by omega, ?_⟩
      have hdiv : z1 * 2 ^ 63 / 2 ^ 64 = z1 / 2 := by omega
      have hmod : z1 * 2 ^ 63 % 2 ^ 64 = z1 % 2 * 2 ^ 63 := by omega
      have hsticky : (if z1 % 2 * 2 ^ 63 = 0 then 0 else 1) = z1 % 2 := by split_ifs <;> omega
      simp only [wide64, ne_eq, not_true_eq_false, if_false, hclz, if_true, jam, sticky, hdiv, hmod, hsticky,
        Nat.shiftRight_one, Nat.and_one_is_mod, Nat.cast_ofNat]
    · have hsmall : z1 < 2 ^ 63 := by
        by_contra hcon
        have hspec := (countLeadingZeros_spec hne h1).2.2
        have : 2 ≤ 2 ^ countLeadingZeros 64 z1 := Nat.le_self_pow hclz 2
        have := Nat.mul_le_mul (not_lt.mp hcon) this
        omega
      obtain ⟨m, hm, hlow, hhigh⟩ := leading_zeros (w := 64) (by norm_num) hne hsmall
      have hsplit : z1 * 2 ^ (m + 64) = z1 * 2 ^ m * 2 ^ 64 := by rw [pow_add]; ring
      refine ⟨m + 64, by omega, by omega, ?_⟩
      have hexact : jam (z1 * 2 ^ (m + 64)) 64 = z1 * 2 ^ m := by
        rw [hsplit, jam_of_dvd (Nat.mul_mod_left _ _), Nat.mul_div_cancel _ (by norm_num)]
      have hword : (z1 <<< m) % 2 ^ 64 = z1 * 2 ^ m := by
        rw [Nat.shiftLeft_eq, Nat.mod_eq_of_lt (by omega)]
      simp only [wide64, ne_eq, not_true_eq_false, if_false, hm, Nat.succ_ne_zero, Nat.add_sub_cancel, hexact,
        hword, Nat.cast_add, Nat.cast_ofNat]
  · have hsmall : z0 < 2 ^ 63 := by
      rw [pair128] at hlt
      dsimp only at hlt
      omega
    obtain ⟨n, hn, hlow, hhigh⟩ := leading_zeros (w := 64) (by norm_num) hzero hsmall
    have hn63 : n < 63 := by
      by_contra hcon
      have : 2 ^ 63 ≤ z0 * 2 ^ n := by
        calc 2 ^ 63 ≤ 2 ^ n := Nat.pow_le_pow_right (by norm_num) (by omega)
          _ ≤ z0 * 2 ^ n := Nat.le_mul_of_pos_left _ (Nat.pos_of_ne_zero hzero)
      omega
    have hroom : (z0 + 1) * 2 ^ n ≤ 2 ^ 63 := by
      have hsplit : 2 ^ 63 = 2 ^ (63 - n) * 2 ^ n := by rw [← pow_add, Nat.sub_add_cancel hn63.le]
      rw [hsplit] at hhigh ⊢
      exact Nat.mul_le_mul_right _ (Nat.lt_of_mul_lt_mul_right hhigh)
    have hparts : pair128 (z0, z1) * 2 ^ n = z0 * 2 ^ n * 2 ^ 64 + z1 * 2 ^ n := by
      rw [pair128]
      ring
    have hlower : z1 * 2 ^ n < 2 ^ n * 2 ^ 64 := by
      rw [Nat.mul_comm (2 ^ n)]
      exact Nat.mul_lt_mul_of_pos_right h1 (by positivity)
    have hge : 2 ^ 126 ≤ pair128 (z0, z1) * 2 ^ n := by omega
    have hlt' : pair128 (z0, z1) * 2 ^ n < 2 ^ 127 := by
      rw [Nat.succ_mul] at hroom
      omega
    refine ⟨n, hge, hlt', ?_⟩
    have hfit : pair128 (z0, z1) * 2 ^ n < 2 ^ 128 := by omega
    obtain ⟨-, hw1, hw⟩ := shortShift128Left_eq h1 (show n < 64 by omega) hfit
    have hshift : (countLeadingZeros 64 z0 : ℤ) - 1 = n := by omega
    have hjam := @jam_word (shortShift128Left z0 z1 n).1 (shortShift128Left z0 z1 n).2 hw1
    rw [Prod.mk.eta, hw] at hjam
    simp only [wide64, ne_eq, hzero, not_false_eq_true, if_true, hshift, Int.toNat_natCast, hjam]

theorem sub128_words (a0 a1 b0 b1 : ℕ) :
    (sub128 a0 a1 b0 b1).1 < 2 ^ 64 ∧ (sub128 a0 a1 b0 b1).2 < 2 ^ 64 := by
  simp only [sub128]
  exact ⟨Nat.mod_lt _ (by norm_num), Nat.mod_lt _ (by norm_num)⟩

theorem add128_words (a0 a1 b0 b1 : ℕ) :
    (add128 a0 a1 b0 b1).1 < 2 ^ 64 ∧ (add128 a0 a1 b0 b1).2 < 2 ^ 64 := by
  simp only [add128]
  exact ⟨Nat.mod_lt _ (by norm_num), Nat.mod_lt _ (by norm_num)⟩

theorem exact64 : Exact .float64 wide64 (fun z => z.1 < 2 ^ 64 ∧ z.2 < 2 ^ 64) pair128 where
  product hA hB := pair_product hA hB
  double hz hlt := by
    have h := pair_double hz.1 hz.2 hlt
    exact ⟨h.1, h.2.1, decide_eq_true_iff.trans h.2.2⟩
  addend hs := pair_addend hs
  rightJamming {z} hz count := by
    obtain ⟨h0, h1, heq⟩ := @shift128RightJamming_eq z.1 z.2 hz.1 hz.2 count
    exact ⟨⟨h0, h1⟩, heq⟩
  add {y z} hy hz hlt := by
    have h := @pair_add y z hy hz hlt
    exact ⟨add128_words y.1 y.2 z.1 z.2, h⟩
  sub {y z} hy hz hle := by
    have h := @pair_sub y z hy hz hle
    exact ⟨sub128_words y.1 y.2 z.1 z.2, h⟩
  lt {y z} hy hz := @lt128_iff y.1 y.2 z.1 z.2 hy.2 hz.2
  upper_bit hz := decide_eq_true_iff.trans (pair_upper_bit hz.2)
  upper hz _ := pair_upper hz.1 hz.2
  normalized hz hne hlt := pair_normalized hz.1 hz.2 hne hlt

end Umeq.Fpu
