import Mathlib

/-! # Rounding to a floating-point grid

    A number is *representable* with `p` bits when it is `m * 2 ^ e` for a significand of
    at most `p` bits and an exponent that is not below `emin`. Nothing bounds the exponents above:
    what overflows is decided after the rounding.

    Code that rounds does not have the exact number at hand. It has an approximation that lies on the
    same side of every point where the rounding can change: the two are in the same *cell*.
    A bit that is or-ed of all the bits that are shifted out (`jam`) keeps the cell.

    * `SameCell`: comparisons with the multiples of a unit, and what keeps them.
    * `sticky`, `jam`: a quotient and a shift to the right, with a sticky bit.
    * `Rounding`: what each mode of rounding delivers.
    * `round_significand`: rounding by an increment of the significand.
    * `round_integer`: rounding to an integer.
-/

namespace Rounding

/-! ## Cells -/

section cells

variable {g x y z : ℚ}

/-- The two numbers compare alike with every multiple of the unit. -/
def SameCell (g x y : ℚ) : Prop := ∀ k : ℤ, (x < k * g ↔ y < k * g) ∧ (k * g < x ↔ k * g < y)

theorem SameCell.refl (g x : ℚ) : SameCell g x x := fun _ => ⟨Iff.rfl, Iff.rfl⟩

theorem SameCell.symm (h : SameCell g x y) : SameCell g y x := fun k => ⟨(h k).1.symm, (h k).2.symm⟩

theorem SameCell.trans (hxy : SameCell g x y) (hyz : SameCell g y z) : SameCell g x z :=
  fun k => ⟨(hxy k).1.trans (hyz k).1, (hxy k).2.trans (hyz k).2⟩

/-- A coarser unit has fewer multiples. -/
theorem SameCell.coarsen (h : SameCell g x y) (n : ℕ) : SameCell (n * g) x y := by
  intro k
  have hk := h (k * n)
  push_cast at hk
  rwa [mul_assoc] at hk

theorem SameCell.pow_le {i j : ℕ} (h : SameCell (2 ^ i) x y) (hij : i ≤ j) : SameCell (2 ^ j) x y := by
  have hc := h.coarsen (2 ^ (j - i))
  push_cast at hc
  rwa [← pow_add, Nat.sub_add_cancel hij] at hc

theorem SameCell.scale {c : ℚ} (hc : 0 < c) (h : SameCell g x y) : SameCell (g * c) (x * c) (y * c) := by
  intro k
  rw [← mul_assoc, mul_lt_mul_iff_left₀ hc, mul_lt_mul_iff_left₀ hc, mul_lt_mul_iff_left₀ hc,
    mul_lt_mul_iff_left₀ hc]
  exact h k

theorem SameCell.add_mul (h : SameCell g x y) (n : ℤ) : SameCell g (n * g + x) (n * g + y) := by
  intro k
  have hk := h (k - n)
  push_cast at hk
  rw [sub_mul] at hk
  constructor
  · rw [← lt_sub_iff_add_lt', ← lt_sub_iff_add_lt']
    exact hk.1
  · rw [← sub_lt_iff_lt_add', ← sub_lt_iff_lt_add']
    exact hk.2

theorem SameCell.mul_sub (h : SameCell g x y) (n : ℤ) : SameCell g (n * g - x) (n * g - y) := by
  intro k
  have hk := h (n - k)
  push_cast at hk
  rw [sub_mul] at hk
  constructor
  · rw [sub_lt_comm, sub_lt_comm (c := (k : ℚ) * g)]
    exact hk.2
  · rw [lt_sub_comm, lt_sub_comm (a := (k : ℚ) * g)]
    exact hk.1

/-- A multiple of the unit is alone in its cell. -/
theorem SameCell.eq_mul_iff (h : SameCell g x y) (k : ℤ) : x = k * g ↔ y = k * g := by
  have hk := h k
  constructor
  · intro heq
    rw [heq] at hk
    exact le_antisymm (not_lt.mp fun hlt => lt_irrefl _ (hk.2.mpr hlt))
      (not_lt.mp fun hlt => lt_irrefl _ (hk.1.mpr hlt))
  · intro heq
    rw [heq] at hk
    exact le_antisymm (not_lt.mp fun hlt => lt_irrefl _ (hk.2.mp hlt))
      (not_lt.mp fun hlt => lt_irrefl _ (hk.1.mp hlt))

theorem SameCell.le_mul_iff (h : SameCell g x y) (k : ℤ) : x ≤ k * g ↔ y ≤ k * g := by
  rw [← not_lt, ← not_lt, (h k).2]

theorem SameCell.mul_le_iff (h : SameCell g x y) (k : ℤ) : k * g ≤ x ↔ k * g ≤ y := by
  rw [← not_lt, ← not_lt, (h k).1]

end cells

/-! ## Sticky bits -/

/-- A quotient, with a bit that tells whether there is a remainder or-ed into the lowest one. -/
def sticky (a d : ℕ) : ℕ := a / d ||| if a % d = 0 then 0 else 1

/-- A shift to the right, with the bits that go out or-ed into the lowest one that stays. -/
def jam (a n : ℕ) : ℕ := sticky a (2 ^ n)

theorem sticky_of_dvd {a d : ℕ} (h : a % d = 0) : sticky a d = a / d := by
  rw [sticky, if_pos h, Nat.or_zero]

theorem jam_of_dvd {a n : ℕ} (h : a % 2 ^ n = 0) : jam a n = a / 2 ^ n := sticky_of_dvd h

theorem or_one (m : ℕ) : m ||| 1 = 2 * (m / 2) + 1 := by
  have hdiv : (m ||| 1) / 2 = m / 2 := by rw [Nat.or_div_two, Nat.or_zero]
  have hmod : (m ||| 1) % 2 = 1 := Nat.or_mod_two_eq_one.mpr (Or.inr rfl)
  omega

theorem sticky_of_not_dvd {a d : ℕ} (h : a % d ≠ 0) : sticky a d = 2 * (a / d / 2) + 1 := by
  rw [sticky, if_neg h, or_one]

theorem jam_of_not_dvd {a n : ℕ} (h : a % 2 ^ n ≠ 0) : jam a n = 2 * (a / 2 ^ n / 2) + 1 :=
  sticky_of_not_dvd h

/-- Strictly between the same two multiples of the unit. -/
theorem sameCell_inside {g x y : ℚ} {k : ℤ} (hg : 0 < g) (hx : k * g < x) (hx' : x < (k + 1) * g)
    (hy : k * g < y) (hy' : y < (k + 1) * g) : SameCell g x y := by
  intro m
  rcases le_or_gt m k with hm | hm
  · have hle : (m : ℚ) * g ≤ k * g := mul_le_mul_of_nonneg_right (by exact_mod_cast hm) hg.le
    exact ⟨⟨fun h => by linarith, fun h => by linarith⟩, ⟨fun _ => by linarith, fun _ => by linarith⟩⟩
  · have hle : ((k : ℚ) + 1) * g ≤ m * g := mul_le_mul_of_nonneg_right (by exact_mod_cast hm) hg.le
    exact ⟨⟨fun _ => by linarith, fun _ => by linarith⟩, ⟨fun h => by linarith, fun h => by linarith⟩⟩

/-- The sticky bit keeps what lies between two even numbers there. -/
theorem sameCell_sticky (a : ℕ) {d : ℕ} (hd : 0 < d) : SameCell 2 (sticky a d) (a / d) := by
  have hpos : (0 : ℚ) < d := by exact_mod_cast hd
  have hdiv : d * (a / d) + a % d = a := Nat.div_add_mod a d
  have hlt : a % d < d := Nat.mod_lt _ hd
  by_cases h : a % d = 0
  · have heq : ((sticky a d : ℕ) : ℚ) = a / d := by
      rw [sticky_of_dvd h, eq_div_iff hpos.ne']
      rw [h, Nat.add_zero] at hdiv
      exact_mod_cast (Nat.mul_comm _ _).trans hdiv
    rw [heq]
    exact SameCell.refl _ _
  · -- both sides lie strictly between `2 * m` and `2 * m + 2`
    rw [sticky_of_not_dvd h]
    generalize hm : a / d = q at hdiv
    have hlow : ((2 * (q / 2) : ℕ) : ℚ) < a / d := by
      rw [lt_div_iff₀ hpos]
      have : 2 * (q / 2) * d < a := by
        calc 2 * (q / 2) * d ≤ q * d := Nat.mul_le_mul_right _ (by omega)
          _ = d * q := Nat.mul_comm _ _
          _ < a := by omega
      exact_mod_cast this
    have hhigh : (a : ℚ) / d < ((2 * (q / 2) + 2 : ℕ) : ℚ) := by
      rw [div_lt_iff₀ hpos]
      have : a < (2 * (q / 2) + 2) * d := by
        calc a < d * q + d := by omega
          _ = (q + 1) * d := by ring
          _ ≤ (2 * (q / 2) + 2) * d := Nat.mul_le_mul_right _ (by omega)
      exact_mod_cast this
    generalize q / 2 = m at hlow hhigh
    push_cast at hlow hhigh ⊢
    exact sameCell_inside (k := m) (by norm_num) (by push_cast; linarith) (by push_cast; linarith)
      (by push_cast; linarith) (by push_cast; linarith)

theorem sameCell_jam (a n : ℕ) : SameCell 2 (jam a n) (a / 2 ^ n) := by
  have h := sameCell_sticky a (show 0 < 2 ^ n by positivity)
  push_cast at h
  exact h

/-- A sticky shift of what stands for a number already. -/
theorem SameCell.jam {a n i j : ℕ} {y : ℚ} (h : SameCell (2 ^ j) a y) (hi : 1 ≤ i) (hij : j ≤ i + n) :
    SameCell (2 ^ i) (jam a n) (y / 2 ^ n) := by
  have hpow : (0 : ℚ) < (2 ^ n)⁻¹ := by positivity
  have hleft : SameCell (2 ^ i) (Rounding.jam a n) (a / 2 ^ n) := by
    have h2 := sameCell_jam a n
    rw [← pow_one (2 : ℚ)] at h2
    simpa only [pow_one] using h2.pow_le hi
  have hright := (h.pow_le hij).scale hpow
  rw [pow_add, mul_assoc, mul_inv_cancel₀ (by positivity), mul_one, ← div_eq_mul_inv,
    ← div_eq_mul_inv] at hright
  exact hleft.trans hright

/-! ## Modes of rounding -/

inductive Mode where
  | nearest_even | ties_away | to_zero | up | down
  deriving DecidableEq, Repr

/-- What a mode does to a number is what its opposite does to the negated one. -/
def Mode.opposite : Mode → Mode
  | .up => .down
  | .down => .up
  | m => m

section modes

variable (p : ℕ) (emin : ℤ)

/-- At most `p` bits, and an exponent that is not below `emin`. -/
def Representable (x : ℚ) : Prop := ∃ m e : ℤ, |m| < 2 ^ p ∧ emin ≤ e ∧ x = m * 2 ^ e

/-- The last bit is clear in the significand of `p` bits, or of fewer at the smallest exponent. -/
def EvenSignificand (x : ℚ) : Prop :=
  ∃ m e : ℤ, |m| < 2 ^ p ∧ emin ≤ e ∧ x = m * 2 ^ e ∧ (2 ^ (p - 1) ≤ |m| ∨ e = emin) ∧ Even m

def RoundsDown (x r : ℚ) : Prop := IsGreatest {z | Representable p emin z ∧ z ≤ x} r

def RoundsUp (x r : ℚ) : Prop := IsLeast {z | Representable p emin z ∧ x ≤ z} r

def RoundsNearest (x r : ℚ) : Prop :=
  Representable p emin r ∧ ∀ z, Representable p emin z → |x - r| ≤ |x - z|

/-- `r` is what a mode delivers for `x`. -/
def Rounds : Mode → ℚ → ℚ → Prop
  | .down, x, r => RoundsDown p emin x r
  | .up, x, r => RoundsUp p emin x r
  | .to_zero, x, r => if 0 ≤ x then RoundsDown p emin x r else RoundsUp p emin x r
  | .nearest_even, x, r => RoundsNearest p emin x r ∧
      ∀ z, Representable p emin z → |x - z| = |x - r| → z ≠ r → EvenSignificand p emin r
  | .ties_away, x, r => RoundsNearest p emin x r ∧
      ∀ z, Representable p emin z → |x - z| = |x - r| → |z| ≤ |r|

variable {p emin} {x r z : ℚ}

theorem Representable.neg (h : Representable p emin x) : Representable p emin (-x) := by
  obtain ⟨m, e, hm, he, rfl⟩ := h
  exact ⟨-m, e, by rwa [abs_neg], he, by push_cast; ring⟩

theorem representable_neg : Representable p emin (-x) ↔ Representable p emin x :=
  ⟨fun h => neg_neg x ▸ h.neg, Representable.neg⟩

theorem representable_zero : Representable p emin 0 :=
  ⟨0, emin, by simp, le_refl _, by simp⟩

theorem EvenSignificand.neg (h : EvenSignificand p emin x) : EvenSignificand p emin (-x) := by
  obtain ⟨m, e, hm, he, rfl, hlead, heven⟩ := h
  exact ⟨-m, e, by rwa [abs_neg], he, by push_cast; ring, by rwa [abs_neg], heven.neg⟩

theorem RoundsDown.neg (h : RoundsDown p emin x r) : RoundsUp p emin (-x) (-r) := by
  refine ⟨⟨h.1.1.neg, neg_le_neg h.1.2⟩, ?_⟩
  rintro z ⟨hz, hle⟩
  exact neg_le.mp (h.2 ⟨hz.neg, neg_le.mp hle⟩)

theorem RoundsUp.neg (h : RoundsUp p emin x r) : RoundsDown p emin (-x) (-r) := by
  refine ⟨⟨h.1.1.neg, neg_le_neg h.1.2⟩, ?_⟩
  rintro z ⟨hz, hle⟩
  exact le_neg.mp (h.2 ⟨hz.neg, le_neg.mp hle⟩)

theorem abs_neg_sub_neg (x z : ℚ) : |-x - -z| = |x - z| := by
  rw [neg_sub_neg, abs_sub_comm]

theorem abs_neg_sub (x z : ℚ) : |-x - z| = |x - -z| := by
  rw [← abs_neg_sub_neg x (-z), neg_neg]

theorem RoundsNearest.neg (h : RoundsNearest p emin x r) : RoundsNearest p emin (-x) (-r) := by
  refine ⟨h.1.neg, fun z hz => ?_⟩
  rw [abs_neg_sub_neg, abs_neg_sub]
  exact h.2 (-z) hz.neg

/-- Zero is rounded to itself, whichever way. -/
theorem RoundsDown.eq_zero (h : RoundsDown p emin 0 r) : r = 0 :=
  le_antisymm h.1.2 (h.2 ⟨representable_zero, le_refl _⟩)

theorem Rounds.neg {m : Mode} (h : Rounds p emin m x r) : Rounds p emin m.opposite (-x) (-r) := by
  cases m with
  | down => exact RoundsDown.neg h
  | up => exact RoundsUp.neg h
  | to_zero =>
    simp only [Rounds, Mode.opposite] at h ⊢
    by_cases hx : 0 ≤ x
    · rw [if_pos hx] at h
      by_cases hneg : 0 ≤ -x
      · -- only zero is on both sides
        obtain rfl : x = 0 := by linarith
        have hr := h.eq_zero
        subst hr
        rw [neg_zero, if_pos (le_refl _)]
        exact h
      · rw [if_neg hneg]
        exact h.neg
    · rw [if_neg hx] at h
      rw [if_pos (by linarith)]
      exact h.neg
  | nearest_even =>
    refine ⟨h.1.neg, fun z hz htie hne => (h.2 (-z) hz.neg ?_ ?_).neg⟩
    · rwa [abs_neg_sub, abs_neg_sub_neg] at htie
    · exact fun heq => hne (by rw [← heq, neg_neg])
  | ties_away =>
    refine ⟨h.1.neg, fun z hz htie => ?_⟩
    rw [abs_neg_sub, abs_neg_sub_neg] at htie
    have hle := h.2 (-z) hz.neg htie
    rwa [abs_neg] at hle ⊢

/-- The result of any mode is a number of the format. -/
theorem Rounds.representable {m : Mode} (h : Rounds p emin m x r) : Representable p emin r := by
  cases m with
  | down => exact h.1.1
  | up => exact h.1.1
  | to_zero =>
    simp only [Rounds] at h
    split at h
    · exact h.1.1
    · exact h.1.1
  | nearest_even => exact h.1.1
  | ties_away => exact h.1.1

/-- A number of the format is left as it is. -/
theorem Rounds.eq_self {m : Mode} (h : Rounds p emin m x r) (hx : Representable p emin x) : r = x := by
  have hnear : RoundsNearest p emin x r → r = x := by
    intro hr
    have hle := hr.2 x hx
    rw [sub_self, abs_zero] at hle
    have := abs_eq_zero.mp (le_antisymm hle (abs_nonneg _))
    linarith
  cases m with
  | down => exact le_antisymm h.1.2 (h.2 ⟨hx, le_refl _⟩)
  | up => exact le_antisymm (h.2 ⟨hx, le_refl _⟩) h.1.2
  | to_zero =>
    simp only [Rounds] at h
    split at h
    · exact le_antisymm h.1.2 (h.2 ⟨hx, le_refl _⟩)
    · exact le_antisymm (h.2 ⟨hx, le_refl _⟩) h.1.2
  | nearest_even => exact hnear h.1
  | ties_away => exact hnear h.1

/-- What is a number of the format already. -/
theorem Rounds.self {m : Mode} (hx : Representable p emin x) : Rounds p emin m x x := by
  have hdown : RoundsDown p emin x x := ⟨⟨hx, le_refl _⟩, fun z hz => hz.2⟩
  have hup : RoundsUp p emin x x := ⟨⟨hx, le_refl _⟩, fun z hz => hz.2⟩
  have hnear : RoundsNearest p emin x x := ⟨hx, fun z _ => by rw [sub_self, abs_zero]; exact abs_nonneg _⟩
  have honly : ∀ z, |x - z| = |x - x| → z = x := by
    intro z htie
    rw [sub_self, abs_zero, abs_eq_zero, sub_eq_zero] at htie
    exact htie.symm
  cases m with
  | down => exact hdown
  | up => exact hup
  | to_zero =>
    simp only [Rounds]
    split
    · exact hdown
    · exact hup
  | nearest_even => exact ⟨hnear, fun z _ htie hne => absurd (honly z htie) hne⟩
  | ties_away => exact ⟨hnear, fun z _ htie => by rw [honly z htie]⟩

/-! ## One result -/

variable {r' : ℚ}

theorem RoundsNearest.eq_of_between {z : ℚ} (h : RoundsNearest p emin x r) (hz : Representable p emin z)
    (htie : |x - r| = |x - r'|) (hlow : r < z) (hhigh : z < r') : False := by
  have hle := h.2 z hz
  rcases abs_cases (x - r) with ⟨h1, h1'⟩ | ⟨h1, h1'⟩ <;> rcases abs_cases (x - r') with ⟨h2, h2'⟩ | ⟨h2, h2'⟩ <;>
    rcases abs_cases (x - z) with ⟨h3, h3'⟩ | ⟨h3, h3'⟩ <;> linarith

/-- Between two numbers with even significands there is another number. -/
theorem EvenSignificand.between (hp : 1 ≤ p) (h : EvenSignificand p emin r) (h' : EvenSignificand p emin r')
    (hlt : r < r') : ∃ z, Representable p emin z ∧ r < z ∧ z < r' := by
  obtain ⟨m, e, hm, he, rfl, -, heven⟩ := h
  obtain ⟨n, f, hn, hf, rfl, -, heven'⟩ := h'
  have hpow : Even ((2 : ℤ) ^ p) := (even_two).pow_of_ne_zero (by omega)
  have hm' := abs_lt.mp hm
  have hn' := abs_lt.mp hn
  have hpose : (0 : ℚ) < 2 ^ e := by positivity
  have hposf : (0 : ℚ) < 2 ^ f := by positivity
  rcases le_total e f with hef | hfe
  · -- one unit up from the lower number
    obtain ⟨d, rfl⟩ := Int.le.dest hef
    refine ⟨(m + 1 : ℤ) * 2 ^ e, ⟨m + 1, e, ?_, he, rfl⟩, ?_, ?_⟩
    · rw [abs_lt]
      obtain ⟨i, hi⟩ := heven
      obtain ⟨j, hj⟩ := hpow
      omega
    · exact mul_lt_mul_of_pos_right (by push_cast; linarith) hpose
    · have heq : (n : ℚ) * 2 ^ (e + (d : ℤ)) = ((n * 2 ^ d : ℤ) : ℚ) * 2 ^ e := by
        rw [zpow_add₀ (by norm_num), zpow_natCast]
        push_cast
        ring
      rw [heq] at hlt ⊢
      have hint : m < n * 2 ^ d := by exact_mod_cast lt_of_mul_lt_mul_right hlt hpose.le
      obtain ⟨i, hi⟩ := heven
      obtain ⟨j, hj⟩ := heven'.mul_right (2 ^ d)
      exact mul_lt_mul_of_pos_right (by exact_mod_cast (by omega : m + 1 < n * 2 ^ d)) hpose
  · -- one unit down from the upper number
    obtain ⟨d, rfl⟩ := Int.le.dest hfe
    refine ⟨(n - 1 : ℤ) * 2 ^ f, ⟨n - 1, f, ?_, hf, rfl⟩, ?_, ?_⟩
    · rw [abs_lt]
      obtain ⟨i, hi⟩ := heven'
      obtain ⟨j, hj⟩ := hpow
      omega
    · have heq : (m : ℚ) * 2 ^ (f + (d : ℤ)) = ((m * 2 ^ d : ℤ) : ℚ) * 2 ^ f := by
        rw [zpow_add₀ (by norm_num), zpow_natCast]
        push_cast
        ring
      rw [heq] at hlt ⊢
      have hint : m * 2 ^ d < n := by exact_mod_cast lt_of_mul_lt_mul_right hlt hposf.le
      obtain ⟨i, hi⟩ := heven'
      obtain ⟨j, hj⟩ := heven.mul_right (2 ^ d)
      exact mul_lt_mul_of_pos_right (by exact_mod_cast (by omega : m * 2 ^ d < n - 1)) hposf
    · exact mul_lt_mul_of_pos_right (by push_cast; linarith) hposf

/-- A mode delivers one number only. -/
theorem Rounds.unique {m : Mode} (hp : 1 ≤ p) (h : Rounds p emin m x r) (h' : Rounds p emin m x r') : r = r' := by
  have hnear : RoundsNearest p emin x r → RoundsNearest p emin x r' → |x - r| = |x - r'| := by
    intro hr hr'
    exact le_antisymm (hr.2 _ hr'.1) (hr'.2 _ hr.1)
  cases m with
  | down => exact IsGreatest.unique h h'
  | up => exact IsLeast.unique h h'
  | to_zero =>
    simp only [Rounds] at h h'
    split at h
    · rename_i hx
      rw [if_pos hx] at h'
      exact IsGreatest.unique h h'
    · rename_i hx
      rw [if_neg hx] at h'
      exact IsLeast.unique h h'
  | nearest_even =>
    have htie := hnear h.1 h'.1
    by_contra hne
    have heven := h.2 r' h'.1.1 htie.symm (Ne.symm hne)
    have heven' := h'.2 r h.1.1 htie hne
    rcases lt_or_gt_of_ne hne with hlt | hgt
    · obtain ⟨z, hz, hlow, hhigh⟩ := heven.between hp heven' hlt
      exact h.1.eq_of_between hz htie hlow hhigh
    · obtain ⟨z, hz, hlow, hhigh⟩ := heven'.between hp heven hgt
      exact h'.1.eq_of_between hz htie.symm hlow hhigh
  | ties_away =>
    have htie := hnear h.1 h'.1
    have habs : |r| = |r'| := le_antisymm (h'.2 r h.1.1 htie) (h.2 r' h'.1.1 htie.symm)
    rcases abs_eq_abs.mp habs with heq | heq
    · exact heq
    · -- only zero is as far from both
      subst heq
      have hzero := h.1.2 0 representable_zero
      rw [sub_zero] at hzero
      rcases abs_cases (x - -r') with ⟨h1, h1'⟩ | ⟨h1, h1'⟩ <;> rcases abs_cases (x - r') with ⟨h2, h2'⟩ | ⟨h2, h2'⟩ <;>
        rcases abs_cases x with ⟨h3, h3'⟩ | ⟨h3, h3'⟩ <;> linarith

end modes

/-! ## Between two neighbours

    `n * 2 ^ e` and `(n + 1) * 2 ^ e` are neighbours where `n` has its leading bit, or `e` is the
    smallest exponent. -/

section neighbours

variable {p : ℕ} {emin e : ℤ} {n : ℕ} {w z : ℚ}

theorem representable_units (hp : 1 ≤ p) (he : emin ≤ e) (hn : n ≤ 2 ^ p) :
    Representable p emin (n * 2 ^ e) := by
  rcases Nat.lt_or_eq_of_le hn with hlt | heq
  · refine ⟨n, e, ?_, he, by push_cast; ring⟩
    rw [abs_of_nonneg (by positivity)]
    exact_mod_cast hlt
  · -- one more than the largest significand is a power of two
    refine ⟨2 ^ (p - 1), e + 1, ?_, by omega, ?_⟩
    · rw [abs_of_nonneg (by positivity)]
      exact pow_lt_pow_right₀ (by norm_num) (by omega)
    · obtain ⟨q, rfl⟩ : ∃ q, p = q + 1 := ⟨p - 1, by omega⟩
      rw [heq, zpow_add_one₀ (by norm_num)]
      push_cast
      rw [pow_succ]
      ring

/-- Nothing of the format lies between neighbours. -/
theorem units_le_of_lt (hlead : 2 ^ (p - 1) ≤ n ∨ e = emin) (hp : 1 ≤ p) (hz : Representable p emin z)
    (hlt : n * 2 ^ e < z) : (n + 1) * 2 ^ e ≤ z := by
  obtain ⟨m, f, hm, hf, rfl⟩ := hz
  have hpos : (0 : ℚ) < 2 ^ e := by positivity
  rcases le_or_gt e f with hef | hfe
  · -- the number is a multiple of the unit
    obtain ⟨d, rfl⟩ := Int.le.dest hef
    rw [zpow_add₀ (by norm_num), zpow_natCast, mul_comm ((2 : ℚ) ^ e), ← mul_assoc] at hlt ⊢
    have hint : (n : ℚ) < m * 2 ^ d := lt_of_mul_lt_mul_right hlt hpos.le
    have hint' : (n : ℤ) < m * 2 ^ d := by exact_mod_cast hint
    have hge : (n : ℚ) + 1 ≤ m * 2 ^ d := by exact_mod_cast hint'
    exact mul_le_mul_of_nonneg_right hge hpos.le
  · -- a smaller exponent does not reach so far
    have hn : 2 ^ (p - 1) ≤ n := hlead.resolve_right (by omega)
    have hm' : (m : ℚ) < 2 ^ p := by exact_mod_cast (abs_lt.mp hm).2
    have hbig : (m : ℚ) * 2 ^ f ≤ n * 2 ^ e := by
      calc (m : ℚ) * 2 ^ f ≤ 2 ^ p * 2 ^ f := mul_le_mul_of_nonneg_right hm'.le (by positivity)
        _ = 2 ^ (p - 1) * 2 ^ (f + 1) := by
            obtain ⟨q, rfl⟩ : ∃ q, p = q + 1 := ⟨p - 1, by omega⟩
            rw [zpow_add_one₀ (by norm_num), Nat.add_sub_cancel, pow_succ]
            ring
        _ ≤ 2 ^ (p - 1) * 2 ^ e :=
            mul_le_mul_of_nonneg_left (zpow_le_zpow_right₀ (by norm_num) (by omega)) (by positivity)
        _ ≤ n * 2 ^ e := mul_le_mul_of_nonneg_right (by exact_mod_cast hn) hpos.le
    exact absurd hlt (not_lt.mpr hbig)

/-- Two neighbours and a number from the lower one up to the other. -/
structure Between (p : ℕ) (emin : ℤ) (n : ℕ) (e : ℤ) (w : ℚ) : Prop where
  precision : 2 ≤ p
  exponent : emin ≤ e
  fits : n < 2 ^ p
  lead : 2 ^ (p - 1) ≤ n ∨ e = emin
  low : n ≤ w
  high : w < n + 1

variable (h : Between p emin n e w)

include h

theorem Between.representable : Representable p emin (n * 2 ^ e) :=
  representable_units (by have := h.precision; omega) h.exponent h.fits.le

theorem Between.representable_next : Representable p emin ((n + 1 : ℕ) * 2 ^ e) :=
  representable_units (by have := h.precision; omega) h.exponent h.fits

theorem Between.nonneg : 0 ≤ w * 2 ^ e :=
  mul_nonneg ((Nat.cast_nonneg n).trans h.low) (by positivity)

/-- Everything of the format is on one side or on the other. -/
theorem Between.outside (hz : Representable p emin z) : z ≤ n * 2 ^ e ∨ (n + 1) * 2 ^ e ≤ z := by
  rcases le_or_gt z (n * 2 ^ e) with hle | hlt
  · exact Or.inl hle
  · exact Or.inr (units_le_of_lt h.lead (by have := h.precision; omega) hz hlt)

theorem Between.down : RoundsDown p emin (w * 2 ^ e) (n * 2 ^ e) := by
  have hpos : (0 : ℚ) < 2 ^ e := by positivity
  refine ⟨⟨h.representable, mul_le_mul_of_nonneg_right h.low hpos.le⟩, ?_⟩
  rintro z ⟨hz, hle⟩
  rcases h.outside hz with hz' | hz'
  · exact hz'
  · have := mul_lt_mul_of_pos_right h.high hpos
    linarith

theorem Between.up_of_eq (heq : w = n) : RoundsUp p emin (w * 2 ^ e) (n * 2 ^ e) := by
  rw [heq]
  exact ⟨⟨h.representable, le_refl _⟩, fun z hz => hz.2⟩

theorem Between.up_of_lt (hlt : n < w) : RoundsUp p emin (w * 2 ^ e) ((n + 1 : ℕ) * 2 ^ e) := by
  have hpos : (0 : ℚ) < 2 ^ e := by positivity
  refine ⟨⟨h.representable_next, ?_⟩, ?_⟩
  · push_cast
    exact mul_le_mul_of_nonneg_right h.high.le hpos.le
  · rintro z ⟨hz, hle⟩
    push_cast
    rcases h.outside hz with hz' | hz'
    · have := mul_lt_mul_of_pos_right hlt hpos
      linarith
    · exact hz'

/-- The lower neighbour is at least as close up to the midpoint. -/
theorem Between.nearest_low (hhalf : 2 * w ≤ 2 * n + 1) :
    RoundsNearest p emin (w * 2 ^ e) (n * 2 ^ e) := by
  have hpos : (0 : ℚ) < 2 ^ e := by positivity
  refine ⟨h.representable, fun z hz => ?_⟩
  have hlow := mul_le_mul_of_nonneg_right h.low hpos.le
  have hmid := mul_le_mul_of_nonneg_right hhalf hpos.le
  rw [abs_of_nonneg (by linarith)]
  rcases h.outside hz with hz' | hz'
  · rw [abs_of_nonneg (by linarith)]
    linarith
  · rw [abs_sub_comm]
    refine le_trans ?_ (le_abs_self _)
    linarith

/-- The upper neighbour is at least as close from the midpoint on. -/
theorem Between.nearest_high (hhalf : 2 * n + 1 ≤ 2 * w) :
    RoundsNearest p emin (w * 2 ^ e) ((n + 1 : ℕ) * 2 ^ e) := by
  have hpos : (0 : ℚ) < 2 ^ e := by positivity
  refine ⟨h.representable_next, fun z hz => ?_⟩
  have hhigh := mul_lt_mul_of_pos_right h.high hpos
  have hmid := mul_le_mul_of_nonneg_right hhalf hpos.le
  push_cast
  rw [abs_sub_comm, abs_of_nonneg (by linarith)]
  rcases h.outside hz with hz' | hz'
  · refine le_trans ?_ (le_abs_self _)
    linarith
  · rw [abs_sub_comm]
    refine le_trans ?_ (le_abs_self _)
    linarith

/-- Below the midpoint nothing else is as close as the lower neighbour. -/
theorem Between.tie_low (hhalf : 2 * w < 2 * n + 1) (hz : Representable p emin z)
    (htie : |w * 2 ^ e - z| = |w * 2 ^ e - n * 2 ^ e|) : z = n * 2 ^ e := by
  have hpos : (0 : ℚ) < 2 ^ e := by positivity
  have hlow := mul_le_mul_of_nonneg_right h.low hpos.le
  have hmid := mul_lt_mul_of_pos_right hhalf hpos
  rw [abs_of_nonneg (a := w * 2 ^ e - n * 2 ^ e) (by linarith)] at htie
  rcases h.outside hz with hz' | hz'
  · rw [abs_of_nonneg (by linarith)] at htie
    linarith
  · have := (neg_le_abs (w * 2 ^ e - z)).trans htie.le
    linarith

/-- Nothing that is as close as the lower neighbour is larger, but for the upper one. -/
theorem Between.tie_high (hhalf : 2 * n + 1 < 2 * w) (hz : Representable p emin z)
    (htie : |w * 2 ^ e - z| = |w * 2 ^ e - (n + 1 : ℕ) * 2 ^ e|) : z = (n + 1 : ℕ) * 2 ^ e := by
  have hpos : (0 : ℚ) < 2 ^ e := by positivity
  have hhigh := mul_lt_mul_of_pos_right h.high hpos
  have hmid := mul_lt_mul_of_pos_right hhalf hpos
  push_cast at htie ⊢
  rw [abs_sub_comm (w * 2 ^ e) ((n + 1) * 2 ^ e), abs_of_nonneg (a := _ - w * 2 ^ e) (by linarith)] at htie
  rcases h.outside hz with hz' | hz'
  · have := (le_abs_self (w * 2 ^ e - z)).trans htie.le
    linarith
  · have hge : 0 ≤ z - w * 2 ^ e := by linarith
    rw [abs_sub_comm, abs_of_nonneg hge] at htie
    linarith

theorem Between.even_low (heven : n % 2 = 0) : EvenSignificand p emin (n * 2 ^ e) := by
  refine ⟨n, e, ?_, h.exponent, by push_cast; ring, ?_, ?_⟩
  · rw [abs_of_nonneg (by positivity)]
    exact_mod_cast h.fits
  · rw [abs_of_nonneg (by positivity)]
    exact h.lead.imp (fun hlead => by exact_mod_cast hlead) id
  · exact_mod_cast Nat.even_iff.mpr heven

theorem Between.even_high (hodd : n % 2 = 1) : EvenSignificand p emin ((n + 1 : ℕ) * 2 ^ e) := by
  have hfits := h.fits
  have hprec := h.precision
  rcases Nat.lt_or_eq_of_le (Nat.succ_le_of_lt hfits) with hlt | heq
  · refine ⟨(n + 1 : ℕ), e, ?_, h.exponent, by push_cast; ring, ?_, ?_⟩
    · rw [abs_of_nonneg (by positivity)]
      exact_mod_cast hlt
    · rw [abs_of_nonneg (by positivity)]
      refine h.lead.imp (fun hlead => ?_) id
      exact_mod_cast hlead.trans (Nat.le_succ n)
    · have : (n + 1) % 2 = 0 := by omega
      exact_mod_cast Nat.even_iff.mpr this
  · -- the carry leaves the leading bit alone
    obtain ⟨q, rfl⟩ : ∃ q, p = q + 2 := ⟨p - 2, by omega⟩
    refine ⟨2 ^ (q + 1), e + 1, ?_, by have := h.exponent; omega, ?_, Or.inl ?_, ?_⟩
    · rw [abs_of_nonneg (by positivity)]
      exact pow_lt_pow_right₀ (by norm_num) (by omega)
    · rw [show n + 1 = 2 ^ (q + 2) from heq, zpow_add_one₀ (by norm_num)]
      push_cast
      ring
    · rw [abs_of_nonneg (by positivity)]
      exact le_refl _
    · exact ⟨2 ^ q, by ring⟩

end neighbours

/-! ## Rounding by an increment -/

section significand

variable {p : ℕ} {emin e : ℤ} {g S : ℕ} {Y : ℚ}

/-- What is added to a significand before its `g` lowest bits are dropped. -/
def increment (m : Mode) (g : ℕ) : ℕ :=
  match m with
  | .nearest_even | .ties_away => 2 ^ (g - 1)
  | .up => 2 ^ g - 1
  | .to_zero | .down => 0

/-- The lowest bit is cleared again after a tie. -/
def round_significand (m : Mode) (g S : ℕ) : ℕ :=
  if m = .nearest_even ∧ S % 2 ^ g = 2 ^ (g - 1) then 2 * ((S + increment m g) / 2 ^ g / 2)
  else (S + increment m g) / 2 ^ g

theorem increment_lt_two_pow (hg : 1 ≤ g) (m : Mode) : increment m g < 2 ^ g := by
  obtain ⟨k, rfl⟩ := Nat.exists_eq_add_of_le' hg
  have htwo : 2 ^ (k + 1) = 2 * 2 ^ k := pow_succ' 2 k
  have hpos : 0 < 2 ^ k := by positivity
  cases m <;> simp only [increment, Nat.add_sub_cancel] <;> omega

theorem add_div_two_pow (S c g : ℕ) : (S + c) / 2 ^ g = S / 2 ^ g + (S % 2 ^ g + c) / 2 ^ g := by
  conv_lhs => rw [← Nat.div_add_mod S (2 ^ g), Nat.add_assoc, Nat.mul_add_div (by positivity)]

theorem two_pow_pred (hg : 1 ≤ g) : 2 ^ g = 2 * 2 ^ (g - 1) := by
  rw [← pow_succ', Nat.sub_add_cancel hg]

/-- Where the bits that are dropped add up to `t`, and `c` is added. -/
theorem carry_eq {t c : ℕ} (ht : t < 2 ^ g) (hc : c < 2 ^ g) :
    (t + c) / 2 ^ g = if t + c < 2 ^ g then 0 else 1 := by
  split_ifs with h
  · exact Nat.div_eq_of_lt h
  · exact Nat.div_eq_of_lt_le (by omega) (by omega)

theorem round_significand_of_ne {m : Mode} (h : m ≠ .nearest_even) :
    round_significand m g S = (S + increment m g) / 2 ^ g := if_neg fun hc => h hc.1

theorem round_significand_down {m : Mode} (hm : m = .down ∨ m = .to_zero) :
    round_significand m g S = S / 2 ^ g := by
  rcases hm with rfl | rfl <;> simp [round_significand, increment]

theorem round_significand_up :
    round_significand .up g S = S / 2 ^ g + if S % 2 ^ g = 0 then 0 else 1 := by
  have hpos : 0 < 2 ^ g := by positivity
  have hlt : S % 2 ^ g < 2 ^ g := Nat.mod_lt _ hpos
  simp only [round_significand, reduceCtorEq, false_and, if_false, increment]
  rw [add_div_two_pow, carry_eq hlt (by omega)]
  congr 1
  split_ifs <;> omega

theorem round_significand_away (hg : 1 ≤ g) :
    round_significand .ties_away g S = S / 2 ^ g + if S % 2 ^ g < 2 ^ (g - 1) then 0 else 1 := by
  have hpos : 0 < 2 ^ (g - 1) := by positivity
  have htwo := two_pow_pred hg
  have hlt : S % 2 ^ g < 2 ^ g := Nat.mod_lt _ (by positivity)
  simp only [round_significand, reduceCtorEq, false_and, if_false, increment]
  rw [add_div_two_pow, carry_eq hlt (by omega)]
  congr 1
  split_ifs <;> omega

theorem round_significand_even (htie : S % 2 ^ g ≠ 2 ^ (g - 1)) :
    round_significand .nearest_even g S = round_significand .ties_away g S := by
  simp only [round_significand, reduceCtorEq, true_and, false_and, if_false, increment]
  rw [if_neg htie]

theorem round_significand_tie (hg : 1 ≤ g) (htie : S % 2 ^ g = 2 ^ (g - 1)) :
    round_significand .nearest_even g S = 2 * ((S / 2 ^ g + 1) / 2) := by
  have hpos : 0 < 2 ^ (g - 1) := by positivity
  have htwo := two_pow_pred hg
  simp only [round_significand, true_and, increment]
  rw [if_pos htie, add_div_two_pow, carry_eq (by omega) (by omega), if_neg (by omega)]

theorem le_round_significand (hg : 1 ≤ g) (m : Mode) : S / 2 ^ g ≤ round_significand m g S := by
  by_cases htie : m = .nearest_even ∧ S % 2 ^ g = 2 ^ (g - 1)
  · rw [htie.1, round_significand_tie hg htie.2]
    omega
  · rw [round_significand, if_neg htie]
    exact Nat.div_le_div_right (Nat.le_add_right _ _)

theorem round_significand_le (hg : 1 ≤ g) (m : Mode) {n : ℕ} (h : S ≤ n * 2 ^ g) : round_significand m g S ≤ n := by
  have hinc := increment_lt_two_pow hg m
  have hle : (S + increment m g) / 2 ^ g ≤ n := by
    rw [← Nat.lt_succ_iff, Nat.div_lt_iff_lt_mul (by positivity), Nat.succ_mul]
    omega
  rw [round_significand]
  split_ifs
  · omega
  · exact hle

/-- Even numbers of units are left where they are. -/
theorem round_significand_add (m : Mode) (c : ℕ) :
    round_significand m g (2 * c * 2 ^ g + S) = 2 * c + round_significand m g S := by
  have hdiv : ∀ i, (2 * c * 2 ^ g + S + i) / 2 ^ g = 2 * c + (S + i) / 2 ^ g := by
    intro i
    rw [Nat.add_assoc, Nat.add_comm (2 * c * 2 ^ g), Nat.add_mul_div_right _ _ (by positivity), Nat.add_comm]
  rw [round_significand, round_significand, hdiv, Nat.mul_add_mod_self_right]
  split_ifs
  · omega
  · rfl

/-- A significand with `g` bits too many, and what it stands for, in units of its lowest bit. -/
structure Stands (p : ℕ) (emin : ℤ) (g S : ℕ) (e : ℤ) (Y : ℚ) : Prop where
  precision : 2 ≤ p
  guard : 1 ≤ g
  exponent : emin ≤ e
  fits : S / 2 ^ g < 2 ^ p
  lead : 2 ^ (p - 1) ≤ S / 2 ^ g ∨ e = emin
  cell : SameCell (2 ^ (g - 1)) S Y

variable (h : Stands p emin g S e Y)

include h

/-- The significand and the number compare alike with every half unit. -/
theorem Stands.half_units (k : ℕ) : (S < k * 2 ^ (g - 1) ↔ 2 * (Y / 2 ^ g) < k) ∧
    (k * 2 ^ (g - 1) < S ↔ k < 2 * (Y / 2 ^ g)) := by
  have hpos : (0 : ℚ) < 2 ^ (g - 1) := by positivity
  have htwo : 2 * (Y / 2 ^ g) = Y / 2 ^ (g - 1) := by
    have : (2 : ℚ) ^ g = 2 * 2 ^ (g - 1) := by exact_mod_cast two_pow_pred h.guard
    rw [this]
    field_simp
  rw [htwo, div_lt_iff₀ hpos, lt_div_iff₀ hpos]
  have hk := h.cell k
  push_cast at hk
  rw [← hk.1, ← hk.2]
  exact ⟨by exact_mod_cast Iff.rfl, by exact_mod_cast Iff.rfl⟩

theorem Stands.between : Between p emin (S / 2 ^ g) e (Y / 2 ^ g) := by
  have htwo := two_pow_pred h.guard
  have hdiv := Nat.div_add_mod S (2 ^ g)
  have hlt : S % 2 ^ g < 2 ^ g := Nat.mod_lt _ (by positivity)
  refine ⟨h.precision, h.exponent, h.fits, h.lead, ?_, ?_⟩
  · have hlow := (h.half_units (2 * (S / 2 ^ g))).1.not.mp (by rw [Nat.mul_right_comm, ← htwo]; omega)
    push_cast at hlow
    linarith
  · have hhigh := (h.half_units (2 * (S / 2 ^ g + 1))).1.mp
      (by rw [Nat.mul_right_comm, ← htwo, Nat.mul_add]; omega)
    push_cast at hhigh
    linarith

/-- Nothing is dropped just when the number is a whole number of units. -/
theorem Stands.dropped_iff : S % 2 ^ g = 0 ↔ Y / 2 ^ g = (S / 2 ^ g : ℕ) := by
  have htwo := two_pow_pred h.guard
  have hdiv := Nat.div_add_mod S (2 ^ g)
  have hcmp := (h.half_units (2 * (S / 2 ^ g))).2
  have hlow := h.between.low
  rw [Nat.mul_right_comm, ← htwo] at hcmp
  push_cast at hcmp hlow ⊢
  constructor
  · intro hzero
    have := hcmp.not.mp (by omega)
    linarith
  · intro heq
    have := hcmp.not.mpr (by linarith)
    omega

/-- The bits that are dropped compare with one half as the number does with the midpoint. -/
theorem Stands.midpoint : (S % 2 ^ g < 2 ^ (g - 1) ↔ 2 * (Y / 2 ^ g) < 2 * (S / 2 ^ g : ℕ) + 1) ∧
    (2 ^ (g - 1) < S % 2 ^ g ↔ 2 * (S / 2 ^ g : ℕ) + 1 < 2 * (Y / 2 ^ g)) := by
  have htwo := two_pow_pred h.guard
  have hdiv := Nat.div_add_mod S (2 ^ g)
  have hcmp := h.half_units (2 * (S / 2 ^ g) + 1)
  rw [Nat.add_mul, Nat.one_mul, Nat.mul_right_comm, ← htwo] at hcmp
  push_cast at hcmp ⊢
  rw [← hcmp.1, ← hcmp.2]
  constructor <;> omega

/-- The increment rounds the number, in every mode. -/
theorem Stands.rounds (m : Mode) :
    Rounds p emin m (Y / 2 ^ g * 2 ^ e) (round_significand m g S * 2 ^ e) := by
  have hb := h.between
  have hmid := h.midpoint
  have hdown : RoundsDown p emin (Y / 2 ^ g * 2 ^ e) ((S / 2 ^ g : ℕ) * 2 ^ e) := hb.down
  -- what both modes that go to the nearest do off the midpoint
  have hoff : S % 2 ^ g ≠ 2 ^ (g - 1) → ∀ z, Representable p emin z →
      |Y / 2 ^ g * 2 ^ e - z| = |Y / 2 ^ g * 2 ^ e - round_significand .ties_away g S * 2 ^ e| →
      z = round_significand .ties_away g S * 2 ^ e := by
    intro hne z hz htie
    rw [round_significand_away h.guard] at htie ⊢
    split_ifs at htie ⊢ with hlt
    · exact hb.tie_low (hmid.1.mp hlt) hz htie
    · exact hb.tie_high (hmid.2.mp (by omega)) hz htie
  have hnear : RoundsNearest p emin (Y / 2 ^ g * 2 ^ e) (round_significand .ties_away g S * 2 ^ e) := by
    rw [round_significand_away h.guard]
    split_ifs with hlt
    · exact hb.nearest_low (hmid.1.mp hlt).le
    · exact hb.nearest_high (not_lt.mp (hmid.1.not.mp hlt))
  cases m with
  | down =>
    rw [round_significand_down (Or.inl rfl)]
    exact hdown
  | to_zero =>
    rw [round_significand_down (Or.inr rfl)]
    simp only [Rounds]
    rw [if_pos hb.nonneg]
    exact hdown
  | up =>
    rw [round_significand_up]
    split_ifs with hzero
    · exact hb.up_of_eq (h.dropped_iff.mp hzero)
    · exact hb.up_of_lt (lt_of_le_of_ne hb.low fun heq => hzero (h.dropped_iff.mpr heq.symm))
  | ties_away =>
    refine ⟨hnear, fun z hz htie => ?_⟩
    by_cases hne : S % 2 ^ g = 2 ^ (g - 1)
    · -- the upper neighbour is the larger one
      rw [round_significand_away h.guard, if_neg (by omega)] at htie ⊢
      have hpos : (0 : ℚ) < 2 ^ e := by positivity
      have hhigh := mul_lt_mul_of_pos_right hb.high hpos
      have hle : |Y / 2 ^ g * 2 ^ e - (S / 2 ^ g + 1 : ℕ) * 2 ^ e|
          = (S / 2 ^ g : ℕ) * 2 ^ e + 2 ^ e - Y / 2 ^ g * 2 ^ e := by
        rw [abs_sub_comm, abs_of_nonneg (by push_cast at hhigh ⊢; linarith)]
        push_cast
        ring
      have hnn := hb.nonneg
      have hup := (neg_le_abs (Y / 2 ^ g * 2 ^ e - z)).trans (htie.le.trans hle.le)
      have hdn := (le_abs_self (Y / 2 ^ g * 2 ^ e - z)).trans (htie.le.trans hle.le)
      have hlow := mul_le_mul_of_nonneg_right hb.low hpos.le
      have hnn' : (0 : ℚ) ≤ (S / 2 ^ g : ℕ) * 2 ^ e := by positivity
      rw [abs_of_nonneg (a := ((S / 2 ^ g + 1 : ℕ) : ℚ) * 2 ^ e) (by positivity)]
      push_cast at *
      exact abs_le.mpr ⟨by linarith, by linarith⟩
    · rw [hoff hne z hz htie]
  | nearest_even =>
    by_cases hne : S % 2 ^ g = 2 ^ (g - 1)
    · have heq : 2 * (Y / 2 ^ g) = 2 * (S / 2 ^ g : ℕ) + 1 :=
        le_antisymm (not_lt.mp (hmid.2.not.mp (by omega))) (not_lt.mp (hmid.1.not.mp (by omega)))
      rw [round_significand_tie h.guard hne]
      rcases Nat.mod_two_eq_zero_or_one (S / 2 ^ g) with heven | hodd
      · rw [show 2 * ((S / 2 ^ g + 1) / 2) = S / 2 ^ g by omega]
        exact ⟨hb.nearest_low heq.le, fun _ _ _ _ => hb.even_low heven⟩
      · rw [show 2 * ((S / 2 ^ g + 1) / 2) = S / 2 ^ g + 1 by omega]
        exact ⟨hb.nearest_high heq.ge, fun _ _ _ _ => hb.even_high hodd⟩
    · rw [round_significand_even hne]
      exact ⟨hnear, fun z hz htie hz' => absurd (hoff hne z hz htie) hz'⟩

/-- The result is exact just when nothing is dropped. -/
theorem Stands.exact_iff (m : Mode) :
    (round_significand m g S : ℚ) * 2 ^ e = Y / 2 ^ g * 2 ^ e ↔ S % 2 ^ g = 0 := by
  have hpos : (2 : ℚ) ^ e ≠ 0 := by positivity
  constructor
  · intro heq
    rw [mul_left_inj' hpos] at heq
    have hlow := h.between.low
    have hhigh := h.between.high
    rw [← heq] at hlow hhigh
    have hn : round_significand m g S = S / 2 ^ g := by
      have hlow' : S / 2 ^ g ≤ round_significand m g S := by exact_mod_cast hlow
      have hhigh' : round_significand m g S < S / 2 ^ g + 1 := by exact_mod_cast hhigh
      omega
    rw [h.dropped_iff, ← heq, hn]
  · intro hzero
    have heq := h.dropped_iff.mp hzero
    have hrep := h.between.representable
    rw [← heq] at hrep
    exact (h.rounds m).eq_self hrep

end significand

/-! ## Numbers below the smallest one -/

section tiny

variable {p : ℕ} {emin : ℤ} {x y r : ℚ}

/-- What all numbers below half the smallest one are rounded to. -/
theorem rounds_tiny (hp : 2 ≤ p) (m : Mode) (hx : 0 < x) (hx' : 2 * x < 2 ^ emin) :
    Rounds p emin m x (round_significand m 2 1 * 2 ^ emin) := by
  have hpos : (0 : ℚ) < 2 ^ emin := by positivity
  have hstands : Stands p emin 2 1 emin (4 * x / 2 ^ emin) := by
    refine ⟨hp, by norm_num, le_refl _, by norm_num, Or.inr rfl, ?_⟩
    apply sameCell_inside (k := 0)
    · norm_num
    · norm_num
    · norm_num
    · rw [Int.cast_zero, zero_mul]
      positivity
    · rw [div_lt_iff₀ hpos]
      norm_num
      linarith
  have hrounds := hstands.rounds m
  rwa [show 4 * x / 2 ^ emin / 2 ^ 2 * 2 ^ emin = x by field_simp; ring] at hrounds

theorem Rounds.tiny {m : Mode} (hp : 2 ≤ p) (h : Rounds p emin m x r) (hx : 0 < x) (hx' : 2 * x < 2 ^ emin)
    (hy : 0 < y) (hy' : 2 * y < 2 ^ emin) : Rounds p emin m y r := by
  rw [h.unique (by omega) (rounds_tiny hp m hx hx')]
  exact rounds_tiny hp m hy hy'

/-- A number of the format is no less than the smallest one. -/
theorem Representable.ge (hp : 1 ≤ p) (h : Representable p emin x) (hx : 0 < x) : (2 : ℚ) ^ emin ≤ x := by
  have hle := units_le_of_lt (n := 0) (e := emin) (Or.inr rfl) hp h (by simpa using hx)
  simpa using hle

end tiny

/-! ## Rounding to an integer -/

section integers

variable {g S : ℕ} {x Y : ℚ}

/-- What a mode delivers among the integers. -/
def round_integer : Mode → ℚ → ℤ
  | .down, x => ⌊x⌋
  | .up, x => ⌈x⌉
  | .to_zero, x => if 0 ≤ x then ⌊x⌋ else ⌈x⌉
  | .ties_away, x => if 0 ≤ x then ⌊x + 1 / 2⌋ else ⌈x - 1 / 2⌉
  | .nearest_even, x =>
    if x - ⌊x⌋ < 1 / 2 then ⌊x⌋
    else if 1 / 2 < x - ⌊x⌋ then ⌊x⌋ + 1
    else if ⌊x⌋ % 2 = 0 then ⌊x⌋ else ⌊x⌋ + 1

theorem round_integer_neg (m : Mode) (x : ℚ) : round_integer m.opposite (-x) = -round_integer m x := by
  cases m with
  | down => simp [round_integer, Mode.opposite, Int.ceil_neg]
  | up => simp [round_integer, Mode.opposite, Int.floor_neg]
  | to_zero =>
    simp only [round_integer, Mode.opposite, Int.floor_neg, Int.ceil_neg]
    rcases lt_trichotomy x 0 with h | rfl | h
    · rw [if_pos (by linarith), if_neg (by linarith)]
    · simp
    · rw [if_neg (by linarith), if_pos h.le]
  | ties_away =>
    simp only [round_integer, Mode.opposite]
    rcases lt_trichotomy x 0 with h | rfl | h
    · rw [if_pos (by linarith), if_neg (by linarith), show -x + 1 / 2 = -(x - 1 / 2) by ring, Int.floor_neg]
    · norm_num
    · rw [if_neg (by linarith), if_pos h.le, show -x - 1 / 2 = -(x + 1 / 2) by ring, Int.ceil_neg]
  | nearest_even =>
    simp only [round_integer, Mode.opposite]
    by_cases hint : x = ⌊x⌋
    · -- an integer
      have hfloor : ⌊-x⌋ = -⌊x⌋ := by
        rw [hint, ← Int.cast_neg, Int.floor_intCast, Int.floor_intCast]
      rw [hfloor]
      push_cast
      rw [if_pos (by linarith), if_pos (by linarith)]
    · have hlow := Int.floor_le x
      have hhigh := Int.lt_floor_add_one x
      have hfloor : ⌊-x⌋ = -⌊x⌋ - 1 := by
        rw [Int.floor_eq_iff]
        push_cast
        constructor
        · linarith
        · have := lt_of_le_of_ne hlow (Ne.symm hint)
          linarith
      rw [hfloor]
      push_cast
      rcases lt_trichotomy (x - ⌊x⌋) (1 / 2) with h | h | h
      · rw [if_neg (by linarith), if_pos (by linarith), if_pos h]
        ring
      · rw [if_neg (by linarith), if_neg (by linarith), if_neg h.not_lt, if_neg h.not_gt]
        split_ifs <;> omega
      · rw [if_pos (by linarith), if_neg h.not_gt, if_pos h]
        ring

/-- Any significand has a format that it fits in. -/
theorem stands_integer (hg : 1 ≤ g) (hcell : SameCell (2 ^ (g - 1)) S Y) : Stands (S + 2) 0 g S 0 Y := by
  have hfits : S / 2 ^ g < 2 ^ (S + 2) := by
    calc S / 2 ^ g ≤ S := Nat.div_le_self _ _
      _ < 2 ^ S := Nat.lt_two_pow_self
      _ ≤ 2 ^ (S + 2) := Nat.pow_le_pow_right (by norm_num) (by omega)
  exact ⟨by omega, hg, le_refl _, hfits, Or.inr rfl, hcell⟩

/-! What the modes deliver for what lies between an integer and the next one. -/

section between

variable {n : ℕ} {w : ℚ} (hlow : n ≤ w) (hhigh : w < n + 1)

include hlow hhigh

theorem floor_between : ⌊w⌋ = n := Int.floor_eq_iff.mpr ⟨by exact_mod_cast hlow, by exact_mod_cast hhigh⟩

theorem round_integer_to_zero : round_integer .to_zero w = n := by
  have hn : (0 : ℚ) ≤ n := Nat.cast_nonneg n
  rw [round_integer, if_pos (hn.trans hlow)]
  exact floor_between hlow hhigh

theorem round_integer_up : round_integer .up w = n + if w = n then 0 else 1 := by
  rw [round_integer, Int.ceil_eq_iff]
  split_ifs with h
  · push_cast
    constructor <;> linarith
  · have hlt := lt_of_le_of_ne hlow (Ne.symm h)
    push_cast
    constructor <;> linarith

theorem round_integer_away : round_integer .ties_away w = n + if 2 * w < 2 * n + 1 then 0 else 1 := by
  have hn : (0 : ℚ) ≤ n := Nat.cast_nonneg n
  rw [round_integer, if_pos (hn.trans hlow), Int.floor_eq_iff]
  split_ifs with h
  · push_cast
    constructor <;> linarith
  · push_cast
    constructor <;> linarith

theorem round_integer_even (h : 2 * w ≠ 2 * n + 1) :
    round_integer .nearest_even w = round_integer .ties_away w := by
  rw [round_integer_away hlow hhigh, round_integer, floor_between hlow hhigh, Int.cast_natCast]
  rcases lt_or_gt_of_ne h with hlt | hgt
  · rw [if_pos (by linarith), if_pos hlt, add_zero]
  · rw [if_neg (by linarith), if_pos (by linarith), if_neg hgt.not_gt]

theorem round_integer_tie (h : 2 * w = 2 * n + 1) :
    round_integer .nearest_even w = (2 * ((n + 1) / 2) : ℕ) := by
  rw [round_integer, floor_between hlow hhigh, Int.cast_natCast, if_neg (by linarith), if_neg (by linarith)]
  split_ifs <;> omega

end between

/-- The increment rounds to an integer. -/
theorem round_significand_integer (hg : 1 ≤ g) (hcell : SameCell (2 ^ (g - 1)) S Y) (m : Mode) :
    (round_significand m g S : ℤ) = round_integer m (Y / 2 ^ g) := by
  have hstands := stands_integer hg hcell
  have hlow := hstands.between.low
  have hhigh := hstands.between.high
  have hmid := hstands.midpoint
  have hdrop := hstands.dropped_iff
  cases m with
  | down => rw [round_significand_down (Or.inl rfl), round_integer, floor_between hlow hhigh]
  | to_zero => rw [round_significand_down (Or.inr rfl), round_integer_to_zero hlow hhigh]
  | up =>
    rw [round_significand_up, round_integer_up hlow hhigh, Nat.cast_add, Nat.cast_ite]
    simp only [hdrop, Nat.cast_zero, Nat.cast_one]
  | ties_away =>
    rw [round_significand_away hg, round_integer_away hlow hhigh, Nat.cast_add, Nat.cast_ite]
    simp only [hmid.1, Nat.cast_zero, Nat.cast_one]
  | nearest_even =>
    by_cases htie : S % 2 ^ g = 2 ^ (g - 1)
    · have h1 := hmid.1.not.mp (by omega)
      have h2 := hmid.2.not.mp (by omega)
      rw [round_significand_tie hg htie, round_integer_tie hlow hhigh (by linarith)]
    · have hne : 2 * (Y / 2 ^ g) ≠ 2 * (S / 2 ^ g : ℕ) + 1 := by
        rcases lt_or_gt_of_ne htie with hlt | hgt
        · exact (hmid.1.mp hlt).ne
        · exact (hmid.2.mp hgt).ne'
      rw [round_significand_even htie, round_integer_even hlow hhigh hne, round_significand_away hg,
        round_integer_away hlow hhigh, Nat.cast_add, Nat.cast_ite]
      simp only [hmid.1, Nat.cast_zero, Nat.cast_one]

/-- Whether it is exact shows in the bits that are dropped. -/
theorem round_significand_exact (hg : 1 ≤ g) (hcell : SameCell (2 ^ (g - 1)) S Y) (m : Mode) :
    (round_integer m (Y / 2 ^ g) : ℚ) = Y / 2 ^ g ↔ S % 2 ^ g = 0 := by
  have h := (stands_integer hg hcell).exact_iff m
  rw [zpow_zero, mul_one, mul_one] at h
  rw [← h, ← round_significand_integer hg hcell m, Int.cast_natCast]

/-- The integers are in order with what is rounded. -/
theorem le_round_integer {k : ℤ} {x : ℚ} (m : Mode) (h : k ≤ x) : k ≤ round_integer m x := by
  have hfloor : k ≤ ⌊x⌋ := Int.le_floor.mpr h
  have hceil : k ≤ ⌈x⌉ := hfloor.trans (Int.floor_le_ceil x)
  cases m with
  | down => exact hfloor
  | up => exact hceil
  | to_zero =>
    rw [round_integer]
    split_ifs
    · exact hfloor
    · exact hceil
  | ties_away =>
    rw [round_integer]
    split_ifs
    · rw [Int.le_floor]
      linarith
    · -- what is rounded is still above the integer below
      apply Int.le_ceil_iff.mpr
      linarith
  | nearest_even =>
    rw [round_integer]
    split_ifs <;> omega

theorem round_integer_le {k : ℤ} {x : ℚ} (m : Mode) (h : x ≤ k) : round_integer m x ≤ k := by
  have hneg := le_round_integer (k := -k) (x := -x) m.opposite (by push_cast; linarith)
  rw [round_integer_neg] at hneg
  omega

end integers

end Rounding
