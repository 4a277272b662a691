import Mathlib.Algebra.BigOperators.Intervals
import Mathlib.Algebra.BigOperators.Ring.Finset
import Mathlib.Data.Nat.ModEq
import Mathlib.Tactic.Common
import Mathlib.Tactic.Ring

/-! # Numbers in limbs

    A number as an array of limbs in a base, and the multiplication of two of them row by
    row: each row adds the product by one limb at its own place and carries upwards. Rows
    that are cut at the last limb make the product modulo the power of the base
    (`mul_rows_value`).
-/

namespace Limbs

open Finset

variable (B : Nat)

/-- The number that the first `n` limbs make. -/
def value (d : Nat → Nat) (n : Nat) : Nat := ∑ i ∈ range n, d i * B ^ i

/-- The limbs in the middle of a row, and the carry. -/
structure row where
  w : Nat → Nat
  k : Nat

section multiplication

variable (u : Nat → Nat)

/-- One limb of a row that starts at limb `j`. -/
def mul_step (c j : Nat) (s : row) (i : Nat) : row :=
  let t := u i * c + s.w (i + j) + s.k
  ⟨Function.update s.w (i + j) (t % B), t / B⟩

/-- The first `n` limbs of the row of `c`. -/
def mul_row (c j : Nat) (w : Nat → Nat) (n : Nat) : row :=
  (List.range n).foldl (mul_step B u c j) ⟨w, 0⟩

/-- The rows of the first `m` limbs of `v`, each cut at limb `n`. -/
def mul_rows (v : Nat → Nat) (n : Nat) (w : Nat → Nat) (m : Nat) : Nat → Nat :=
  (List.range m).foldl (fun w j => (mul_row B u (v j) j w (n - j)).w) w

end multiplication

/-! ## Values -/

variable {B}

theorem value_succ (d : Nat → Nat) (n : Nat) : value B d (n + 1) = value B d n + d n * B ^ n :=
  Finset.sum_range_succ _ n

theorem value_add (d : Nat → Nat) (a b : Nat) :
    value B d (a + b) = value B d a + B ^ a * value B (fun i => d (a + i)) b := by
  rw [value, Finset.sum_range_add, value, value, Finset.mul_sum]
  congr 1
  apply Finset.sum_congr rfl
  intro i _
  rw [pow_add]
  ring

theorem value_lt {d : Nat → Nat} {n : Nat} (h : ∀ i < n, d i < B) : value B d n < B ^ n := by
  induction n with
  | zero => simp [value]
  | succ n ih =>
    have hlow := ih fun i hi => h i (Nat.lt_succ_of_lt hi)
    have htop : (d n + 1) * B ^ n ≤ B * B ^ n :=
      Nat.mul_le_mul_right _ (h n (Nat.lt_succ_self n))
    calc value B d (n + 1)
      _ = value B d n + d n * B ^ n := value_succ d n
      _ < B ^ n + d n * B ^ n := Nat.add_lt_add_right hlow _
      _ = (d n + 1) * B ^ n := by ring
      _ ≤ B * B ^ n := htop
      _ = B ^ (n + 1) := by ring

/-- A limb that is not among the first ones does not count. -/
theorem value_update_above (d : Nat → Nat) {n k : Nat} (x : Nat) (h : n ≤ k) :
    value B (Function.update d k x) n = value B d n := by
  apply Finset.sum_congr rfl
  intro i hi
  rw [Function.update_of_ne (by rw [Finset.mem_range] at hi; omega)]

/-- Another limb at place `k`: what it is worth takes the place of what the old one was. -/
theorem value_update (d : Nat → Nat) {n k : Nat} (x : Nat) (h : k < n) :
    value B (Function.update d k x) n + d k * B ^ k = value B d n + x * B ^ k := by
  induction n with
  | zero => omega
  | succ n ih =>
    rw [value_succ, value_succ]
    by_cases hk : k = n
    · subst hk
      rw [value_update_above d x le_rfl, Function.update_self]
      ring
    · have hlow := ih (by omega)
      rw [Function.update_of_ne (by omega)]
      omega

/-! ## Rows -/

variable (u : Nat → Nat)

theorem mul_row_succ (c j : Nat) (w : Nat → Nat) (n : Nat) :
    mul_row B u c j w (n + 1) = mul_step B u c j (mul_row B u c j w n) n := by
  rw [mul_row, List.range_succ, List.foldl_append]
  rfl

theorem mul_rows_succ (v : Nat → Nat) (n : Nat) (w : Nat → Nat) (m : Nat) :
    mul_rows B u v n w (m + 1) = (mul_row B u (v m) m (mul_rows B u v n w m) (n - m)).w := by
  rw [mul_rows, List.range_succ, List.foldl_append]
  rfl

/-- What a row has added so far, with the carry at its own place. -/
theorem mul_row_value (c : Nat) {j n m : Nat} (w : Nat → Nat) (h : n + j ≤ m) :
    value B (mul_row B u c j w n).w m + (mul_row B u c j w n).k * B ^ (n + j)
      = value B w m + c * B ^ j * value B u n := by
  induction n with
  | zero => simp [mul_row, value]
  | succ n ih =>
    have hbefore := ih (by omega)
    rw [mul_row_succ, value_succ]
    generalize mul_row B u c j w n = s at hbefore ⊢
    -- the new limb and the new carry are worth the whole of `t`
    simp only [mul_step]
    set t := u n * c + s.w (n + j) + s.k with ht
    have hlimb := value_update (B := B) s.w (t % B) (show n + j < m by omega)
    have hworth : t % B * B ^ (n + j) + t / B * B ^ (n + 1 + j) = t * B ^ (n + j) := by
      conv_rhs => rw [← Nat.mod_add_div t B]
      ring
    apply Nat.add_right_cancel (m := s.w (n + j) * B ^ (n + j))
    calc value B (Function.update s.w (n + j) (t % B)) m + t / B * B ^ (n + 1 + j)
          + s.w (n + j) * B ^ (n + j)
      _ = value B s.w m + t % B * B ^ (n + j) + t / B * B ^ (n + 1 + j) := by rw [← hlimb]; ring
      _ = value B s.w m + t * B ^ (n + j) := by rw [Nat.add_assoc, hworth]
      _ = value B s.w m + s.k * B ^ (n + j) + u n * c * B ^ (n + j)
          + s.w (n + j) * B ^ (n + j) := by rw [ht]; ring
      _ = value B w m + c * B ^ j * (value B u n + u n * B ^ n)
          + s.w (n + j) * B ^ (n + j) := by rw [hbefore]; ring

/-- Rows that are cut at limb `n` make the product modulo `B ^ n`. -/
theorem mul_rows_value (v : Nat → Nat) {n m : Nat} (w : Nat → Nat) (h : m ≤ n) :
    value B (mul_rows B u v n w m) n ≡ value B w n + value B v m * value B u n [MOD B ^ n] := by
  induction m with
  | zero => simp [mul_rows, value, Nat.ModEq]
  | succ m ih =>
    have hbefore := ih (by omega)
    have hrow := mul_row_value (B := B) u (v m) (mul_rows B u v n w m) (show n - m + m ≤ n by omega)
    -- the limbs of `u` that the row leaves out are worth nothing modulo `B ^ n`
    have hcut : value B u n = value B u (n - m) + B ^ (n - m) * value B (fun i => u (n - m + i)) m := by
      conv_lhs => rw [← Nat.sub_add_cancel (show m ≤ n by omega)]
      exact value_add u (n - m) m
    have hpow : B ^ m * B ^ (n - m) = B ^ n := by
      rw [← pow_add, Nat.add_sub_cancel' (by omega)]
    rw [mul_rows_succ, value_succ]
    rw [Nat.sub_add_cancel (by omega)] at hrow
    generalize mul_row B u (v m) m (mul_rows B u v n w m) (n - m) = s at hrow ⊢
    set rest := value B (fun i => u (n - m + i)) m
    calc value B s.w n
      _ ≡ value B s.w n + s.k * B ^ n [MOD B ^ n] := by
        simp [Nat.ModEq]
      _ = value B (mul_rows B u v n w m) n + v m * B ^ m * value B u (n - m) := hrow
      _ ≡ value B w n + value B v m * value B u n + v m * B ^ m * value B u (n - m) [MOD B ^ n] :=
        hbefore.add_right _
      _ ≡ value B w n + value B v m * value B u n + v m * B ^ m * value B u (n - m)
          + v m * rest * B ^ n [MOD B ^ n] := by simp [Nat.ModEq]
      _ = value B w n + (value B v m + v m * B ^ m) * value B u n := by
        rw [← hpow, hcut]
        ring

end Limbs
