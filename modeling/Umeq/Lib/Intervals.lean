import Mathlib.Data.List.Basic
import Mathlib.Data.List.Pairwise
import Mathlib.Tactic.Common

/-! # Lists of half-open intervals

    A descriptor list is kept by many components: address maps, code layouts,
    allocation areas. The type of the descriptors is left open. Only two
    functions are read from a descriptor `d`: its first address `lo d` and its
    excluded end `hi d`.

    * `Covers`: the address lies in the interval of the descriptor.
    * `owner`: the first descriptor of a list that covers an address.
    * `Apart`: the intervals are in order and do not overlap (gaps allowed).
    * `Tiles a b`: the intervals are in order and fill `[a, b[` with no gap.

    Empty intervals are allowed everywhere. They cover nothing.
-/

namespace Intervals

variable {δ α : Type} (lo hi : δ → Nat)

/-! ## Definitions -/

/-- `x` lies in the half-open interval of `d`. -/
def Covers (d : δ) (x : Nat) : Prop := lo d ≤ x ∧ x < hi d

instance (d : δ) (x : Nat) : Decidable (Covers lo hi d x) :=
  inferInstanceAs (Decidable (_ ∧ _))

/-- The first descriptor of the list that covers `x`. -/
def owner (l : List δ) (x : Nat) : Option δ :=
  l.find? (fun d => decide (Covers lo hi d x))

/-- The value `val` of the owner of `x`. -/
def lookup (val : δ → α) (l : List δ) (x : Nat) : Option α :=
  (owner lo hi l x).map val

/-- Every interval is well-formed, and each one ends before the next ones begin. -/
def Apart (l : List δ) : Prop :=
  (∀ d ∈ l, lo d ≤ hi d) ∧ l.Pairwise (fun d d' => hi d ≤ lo d')

/-- The intervals fill `[a, b[` in order. -/
def Tiles : Nat → Nat → List δ → Prop
  | a, b, [] => a = b
  | a, b, d :: l => lo d = a ∧ a ≤ hi d ∧ Tiles (hi d) b l

instance Tiles.decidable : (a b : Nat) → (l : List δ) → Decidable (Tiles lo hi a b l)
  | a, b, [] => inferInstanceAs (Decidable (a = b))
  | a, b, d :: l =>
    have : Decidable (Tiles lo hi (hi d) b l) := Tiles.decidable (hi d) b l
    inferInstanceAs (Decidable (lo d = a ∧ a ≤ hi d ∧ Tiles lo hi (hi d) b l))

variable {lo hi}

/-! ## Owners -/

theorem owner_some_mem {l : List δ} {x : Nat} {d : δ} (h : owner lo hi l x = some d) :
    d ∈ l ∧ Covers lo hi d x := by
  unfold owner at h
  exact ⟨List.mem_of_find?_eq_some h, by simpa using List.find?_some h⟩

theorem owner_none_iff {l : List δ} {x : Nat} :
    owner lo hi l x = none ↔ ∀ d ∈ l, ¬ Covers lo hi d x := by
  simp [owner]

theorem owner_cons (d : δ) (l : List δ) (x : Nat) :
    owner lo hi (d :: l) x = if Covers lo hi d x then some d else owner lo hi l x := by
  by_cases h : Covers lo hi d x <;> simp [owner, h]

/-! ## Lists in order -/

theorem Apart.nil : Apart lo hi ([] : List δ) := by
  simp [Apart]

theorem apart_cons {d : δ} {l : List δ} :
    Apart lo hi (d :: l) ↔ lo d ≤ hi d ∧ (∀ d' ∈ l, hi d ≤ lo d') ∧ Apart lo hi l := by
  simp only [Apart, List.mem_cons, forall_eq_or_imp, List.pairwise_cons]
  tauto

theorem apart_append {l l' : List δ} :
    Apart lo hi (l ++ l') ↔
      Apart lo hi l ∧ Apart lo hi l' ∧ ∀ d ∈ l, ∀ d' ∈ l', hi d ≤ lo d' := by
  simp only [Apart, List.mem_append, List.pairwise_append]
  constructor
  · rintro ⟨hwf, hl, hl', hsep⟩
    exact ⟨⟨fun d hd => hwf d (.inl hd), hl⟩, ⟨fun d hd => hwf d (.inr hd), hl'⟩, hsep⟩
  · rintro ⟨⟨hwf, hl⟩, ⟨hwf', hl'⟩, hsep⟩
    exact ⟨fun d hd => hd.elim (hwf d) (hwf' d), hl, hl', hsep⟩

/-- In an ordered list at most one descriptor covers an address, so the owner
    is any descriptor that does. -/
theorem Apart.owner_eq {l : List δ} (h : Apart lo hi l) {d : δ} {x : Nat}
    (hd : d ∈ l) (hx : Covers lo hi d x) : owner lo hi l x = some d := by
  induction l with
  | nil => simp at hd
  | cons c l ih =>
    obtain ⟨_, hsep, hl⟩ := apart_cons.mp h
    rw [owner_cons]
    rcases List.mem_cons.mp hd with rfl | hmem
    · rw [if_pos hx]
    · have hc : ¬ Covers lo hi c x := by
        intro hcov
        have := hsep d hmem
        unfold Covers at hcov hx
        omega
      rw [if_neg hc, ih hl hmem]

theorem Apart.lookup_eq {l : List δ} (h : Apart lo hi l) (val : δ → α) {d : δ} {x : Nat}
    (hd : d ∈ l) (hx : Covers lo hi d x) : lookup lo hi val l x = some (val d) := by
  simp [lookup, h.owner_eq hd hx]

theorem lookup_some {val : δ → α} {l : List δ} {x : Nat} {v : α}
    (h : lookup lo hi val l x = some v) : ∃ d ∈ l, Covers lo hi d x ∧ val d = v := by
  unfold lookup at h
  obtain ⟨d, hd, rfl⟩ := Option.map_eq_some_iff.mp h
  obtain ⟨hmem, hcov⟩ := owner_some_mem hd
  exact ⟨d, hmem, hcov, rfl⟩

theorem lookup_none_iff {val : δ → α} {l : List δ} {x : Nat} :
    lookup lo hi val l x = none ↔ ∀ d ∈ l, ¬ Covers lo hi d x := by
  simp [lookup, owner_none_iff]

/-- A middle part may be replaced by another one that stays inside its bounds. -/
theorem Apart.replace {pre mid mid' post : List δ} (h : Apart lo hi (pre ++ (mid ++ post)))
    (hmid : Apart lo hi mid') (hlo : ∀ c ∈ mid', ∃ d ∈ mid, lo d ≤ lo c)
    (hhi : ∀ c ∈ mid', ∃ d ∈ mid, hi c ≤ hi d) : Apart lo hi (pre ++ (mid' ++ post)) := by
  obtain ⟨hpre, hrest, hsep⟩ := apart_append.mp h
  obtain ⟨_, hpost, hsep'⟩ := apart_append.mp hrest
  refine apart_append.mpr ⟨hpre, apart_append.mpr ⟨hmid, hpost, ?_⟩, ?_⟩
  · intro c hc d' hd'
    obtain ⟨d, hd, hle⟩ := hhi c hc
    exact Nat.le_trans hle (hsep' d hd d' hd')
  · intro d hd c hc
    rcases List.mem_append.mp hc with hc | hc
    · obtain ⟨d', hd', hle⟩ := hlo c hc
      exact Nat.le_trans (hsep d hd d' (by simp [hd'])) hle
    · exact hsep d hd c (by simp [hc])

/-! ## Tilings -/

theorem tiles_append {a b : Nat} {l l' : List δ} :
    Tiles lo hi a b (l ++ l') ↔ ∃ m, Tiles lo hi a m l ∧ Tiles lo hi m b l' := by
  induction l generalizing a with
  | nil => simp [Tiles]
  | cons d l ih =>
    simp only [List.cons_append, Tiles, ih]
    constructor
    · rintro ⟨h1, h2, m, h3, h4⟩
      exact ⟨m, ⟨h1, h2, h3⟩, h4⟩
    · rintro ⟨m, ⟨h1, h2, h3⟩, h4⟩
      exact ⟨h1, h2, m, h3, h4⟩

theorem Tiles.le {a b : Nat} {l : List δ} (h : Tiles lo hi a b l) : a ≤ b := by
  induction l generalizing a with
  | nil => exact Nat.le_of_eq h
  | cons d l ih =>
    obtain ⟨_, hle, hl⟩ := h
    exact Nat.le_trans hle (ih hl)

/-- Every interval of a tiling lies in the tiled range. -/
theorem Tiles.bounds {a b : Nat} {l : List δ} (h : Tiles lo hi a b l) :
    ∀ d ∈ l, a ≤ lo d ∧ lo d ≤ hi d ∧ hi d ≤ b := by
  induction l generalizing a with
  | nil => simp
  | cons c l ih =>
    obtain ⟨hlo, hle, hl⟩ := h
    intro d hd
    rcases List.mem_cons.mp hd with rfl | hmem
    · exact ⟨by omega, by omega, hl.le⟩
    · have := ih hl d hmem
      omega

theorem Tiles.apart {a b : Nat} {l : List δ} (h : Tiles lo hi a b l) : Apart lo hi l := by
  induction l generalizing a with
  | nil => exact Apart.nil
  | cons d l ih =>
    obtain ⟨hlo, hle, hl⟩ := h
    exact apart_cons.mpr ⟨by omega, fun d' hd' => (hl.bounds d' hd').1, ih hl⟩

/-- A tiling covers exactly its range. -/
theorem Tiles.covered_iff {a b : Nat} {l : List δ} (h : Tiles lo hi a b l) (x : Nat) :
    (∃ d ∈ l, Covers lo hi d x) ↔ a ≤ x ∧ x < b := by
  constructor
  · rintro ⟨d, hd, hcov⟩
    have := h.bounds d hd
    unfold Covers at hcov
    omega
  · induction l generalizing a with
    | nil => intro hx; have : a = b := h; omega
    | cons d l ih =>
      obtain ⟨hlo, hle, hl⟩ := h
      intro hx
      by_cases hd : x < hi d
      · exact ⟨d, by simp, by unfold Covers; omega⟩
      · obtain ⟨d', hmem, hcov⟩ := ih hl (by omega)
        exact ⟨d', by simp [hmem], hcov⟩

end Intervals
