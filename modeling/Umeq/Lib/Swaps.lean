import Mathlib.Data.Nat.Bitwise
import Mathlib.Tactic.Common

/-! # Exchanges of neighbours in a word

    A mask and two shifts exchange the groups of `2 ^ j` bits of a word with their
    neighbours. A ladder of such rungs permutes the bits, and each rung is an involution
    of the positions that changes bit `j` of a position.
-/

namespace Swaps

variable {w : Nat}

/-- The position that is exchanged with `i`. -/
def partner (j i : Nat) : Nat := if i.testBit j then i - 2 ^ j else i + 2 ^ j

def exchange (c : BitVec w) (n : Nat) (x : BitVec w) : BitVec w :=
  ((x &&& c) <<< n) ||| ((x &&& ~~~ c) >>> n)

/-- A mask with the groups of even number. -/
def EvenGroups (c : BitVec w) (j : Nat) : Prop :=
  ∀ i < w, c.getLsbD i = !i.testBit j ∧ partner j i < w

instance (c : BitVec w) (j : Nat) : Decidable (EvenGroups c j) :=
  inferInstanceAs (Decidable (∀ i < w, c.getLsbD i = !i.testBit j ∧ partner j i < w))

theorem le_of_testBit {i j : Nat} (h : i.testBit j = true) : 2 ^ j ≤ i :=
  Nat.ge_two_pow_of_testBit h

/-- One rung. -/
theorem getLsbD_exchange {c : BitVec w} {j i : Nat} (hc : EvenGroups c j) (x : BitVec w) (hi : i < w) :
    (exchange c (2 ^ j) x).getLsbD i = x.getLsbD (partner j i) := by
  have hup : ∀ k, (2 ^ j + k).testBit j = !k.testBit j := fun k => Nat.testBit_two_pow_add_eq k j
  obtain ⟨hci, hlt⟩ := hc i hi
  simp only [exchange, BitVec.getLsbD_or, BitVec.getLsbD_shiftLeft, BitVec.getLsbD_ushiftRight,
    BitVec.getLsbD_and, BitVec.getLsbD_not, hi, decide_true, Bool.true_and]
  unfold partner at hlt ⊢
  by_cases hbit : i.testBit j = true
  · -- the bit comes from below
    have hle := le_of_testBit hbit
    have hbelow : (i - 2 ^ j).testBit j = false := by
      have := hup (i - 2 ^ j)
      rw [Nat.add_sub_cancel' hle, hbit] at this
      simpa using this.symm
    have habove : (decide (2 ^ j + i < w) && !c.getLsbD (2 ^ j + i)) = false := by
      by_cases hw : 2 ^ j + i < w
      · rw [(hc _ hw).1, hup, hbit]
        simp
      · simp [hw]
    rw [if_pos hbit] at hlt ⊢
    rw [habove, (hc _ hlt).1, hbelow]
    simp [Nat.not_lt.mpr hle]
  · -- the bit comes from above
    rw [Bool.not_eq_true] at hbit
    rw [hbit, if_neg (by decide)] at hlt ⊢
    have hout : (!decide (i < 2 ^ j) && (x.getLsbD (i - 2 ^ j) && c.getLsbD (i - 2 ^ j)))
        = false := by
      by_cases hle : i < 2 ^ j
      · simp [hle]
      · have hbelow : (i - 2 ^ j).testBit j = true := by
          have := hup (i - 2 ^ j)
          rw [Nat.add_sub_cancel' (by omega), hbit] at this
          simpa using this.symm
        rw [(hc (i - 2 ^ j) (lt_of_le_of_lt (Nat.sub_le _ _) hi)).1, hbelow]
        simp
    rw [hout, Nat.add_comm (2 ^ j) i, (hc _ hlt).1, Nat.add_comm i, hup, hbit]
    simp [Nat.add_comm _ i, hlt]

theorem foldr_partner_lt {js : List Nat} {i : Nat} (hi : i < w)
    (hj : ∀ j ∈ js, ∀ k < w, partner j k < w) : js.foldr partner i < w := by
  induction js with
  | nil => exact hi
  | cons j js ih =>
    have hlt := ih fun j' hj' => hj j' (List.mem_cons_of_mem _ hj')
    exact hj j List.mem_cons_self _ hlt

/-- A ladder: the last rung is the first to look at the position. -/
theorem getLsbD_ladder (c : Nat → BitVec w) (x : BitVec w) (js : List Nat)
    (hc : ∀ j ∈ js, EvenGroups (c j) j) {i : Nat} (hi : i < w) :
    (js.foldl (fun x j => exchange (c j) (2 ^ j) x) x).getLsbD i
      = x.getLsbD (js.foldr partner i) := by
  induction js generalizing x with
  | nil => rfl
  | cons j js ih =>
    have hc' : ∀ j' ∈ js, EvenGroups (c j') j' := fun j' hj' => hc j' (List.mem_cons_of_mem _ hj')
    have hlt : js.foldr partner i < w := foldr_partner_lt hi fun j' hj' k hk => (hc' j' hj' k hk).2
    rw [List.foldl_cons, ih _ hc']
    exact getLsbD_exchange (hc j List.mem_cons_self) x hlt

end Swaps
