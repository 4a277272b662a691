import Mathlib.Data.List.Basic
import Mathlib.Data.List.Nodup
import Mathlib.Data.List.Perm.Subperm
import Mathlib.Logic.Function.Basic
import Mathlib.Tactic.Common

/-! # Linear scan allocation of straight-line code

    The code is in single assignment form. One pass gives each register a place
    from its definition to its last use: the registers an instruction writes get
    the first places that are free, and then the places of the registers read for
    the last time become free again.

    * `Assigned`: what the places are good for. An instruction writes no place of a
      register that is still to be read.
    * `scan_assigned`: the places of a scan that succeeds are so.
    * `scan_isSome`: it succeeds when there are as many places as live registers.
-/

namespace LinearScan

variable {ρ : Type}

/-! ## The scan -/

/-- An instruction, as far as the scan looks at it. -/
structure access (ρ : Type) where
  reads : List ρ
  writes : List ρ

/-- The places that are free and the place of each register. -/
structure places (ρ : Type) where
  free : Nat → Bool
  index : ρ → Nat

def first_free (n : Nat) (free : Nat → Bool) : Option Nat := (List.range n).find? free

variable [DecidableEq ρ]

/-- A register gets a place; one that is never read gives it back at once. -/
def take (n : Nat) (last : ρ → Option Nat) (s : places ρ) (r : ρ) : Option (places ρ) := do
  let i ← first_free n s.free
  some ⟨Function.update s.free i (last r = none), Function.update s.index r i⟩

/-- A register gives its place back when `k` is the last instruction to read it. -/
def release (last : ρ → Option Nat) (k : Nat) (s : places ρ) (r : ρ) : places ρ :=
  if last r = some k then { s with free := Function.update s.free (s.index r) true } else s

def step (n : Nat) (last : ρ → Option Nat) (k : Nat) (s : places ρ) (i : access ρ) :
    Option (places ρ) := do
  let s ← i.writes.foldlM (take n last) s
  some (i.reads.foldl (release last k) s)

/-- The whole pass, from instruction `k` on. -/
def scan (n : Nat) (last : ρ → Option Nat) : Nat → List (access ρ) → places ρ → Option (places ρ)
  | _, [], s => some s
  | k, i :: is, s => do
    let s ← step n last k s i
    scan n last (k + 1) is s

/-! ## What the scan is asked for -/

/-- The register is read by instruction `k` or a later one. -/
def is_live (last : ρ → Option Nat) (k : Nat) (r : ρ) : Bool := (last r).any (k ≤ ·)

omit [DecidableEq ρ] in
theorem is_live_iff {last : ρ → Option Nat} {k : Nat} {r : ρ} :
    is_live last k r = true ↔ ∃ l, last r = some l ∧ k ≤ l := by
  cases h : last r <;> simp [is_live, h]

/-- The instruction `k`, after the definitions of `env`, with `last` the last reads. -/
structure Sound (last : ρ → Option Nat) (k : Nat) (env : List ρ) (i : access ρ) : Prop where
  reads : ∀ r ∈ i.reads, r ∈ env ∧ is_live last k r
  ends : ∀ r ∈ env, last r = some k → r ∈ i.reads
  nodup : i.writes.Nodup
  fresh : ∀ w ∈ i.writes, w ∉ env
  later : ∀ w ∈ i.writes, ∀ l, last w = some l → k < l

/-- Code in single assignment form. -/
def Ssa (last : ρ → Option Nat) : Nat → List ρ → List (access ρ) → Prop
  | _, _, [] => True
  | k, env, i :: is => Sound last k env i ∧ Ssa last (k + 1) (env ++ i.writes) is

omit [DecidableEq ρ] in
/-- The form can be checked at each instruction on its own. -/
theorem ssa_of_sound (last : ρ → Option Nat) (pre is : List (access ρ))
    (h : ∀ k i, is[k]? = some i →
      Sound last (pre.length + k) ((pre ++ is.take k).flatMap access.writes) i) :
    Ssa last pre.length (pre.flatMap access.writes) is := by
  induction is generalizing pre with
  | nil => trivial
  | cons i is ih =>
    refine ⟨by simpa using h 0 i rfl, ?_⟩
    have hnext := ih (pre ++ [i]) fun k i' hk => by
      have hk' := h (k + 1) i' hk
      rw [List.length_append, List.append_assoc, List.singleton_append, List.length_singleton,
        Nat.add_assoc, Nat.add_comm 1]
      exact hk'
    rw [List.length_append, List.flatMap_append] at hnext
    simpa using hnext

/-- The registers live before instruction `k`, and those it writes, fit. -/
def Fits (n : Nat) (last : ρ → Option Nat) : Nat → List ρ → List (access ρ) → Prop
  | _, _, [] => True
  | k, env, i :: is => (i.writes ≠ [] → (env.filter (is_live last k)).length + i.writes.length ≤ n) ∧
      Fits n last (k + 1) (env ++ i.writes) is

instance decidableFits (n : Nat) (last : ρ → Option Nat) :
    ∀ k env is, Decidable (Fits n last k env is)
  | _, _, [] => .isTrue trivial
  | k, env, i :: is =>
    have := decidableFits n last (k + 1) (env ++ i.writes) is
    inferInstanceAs (Decidable (_ ∧ _))

/-- Places for instruction `k`: those written are apart from those of the registers
    that are live. -/
structure Placed (n : Nat) (last : ρ → Option Nat) (index : ρ → Nat) (k : Nat) (env : List ρ)
    (i : access ρ) : Prop where
  lt : ∀ w ∈ i.writes, index w < n
  live : ∀ w ∈ i.writes, ∀ r ∈ env, is_live last k r → index w ≠ index r
  apart : ∀ w ∈ i.writes, ∀ w' ∈ i.writes, last w ≠ none → last w' ≠ none → index w = index w' → w = w'

def Assigned (n : Nat) (last : ρ → Option Nat) (index : ρ → Nat) :
    Nat → List ρ → List (access ρ) → Prop
  | _, _, [] => True
  | k, env, i :: is => Placed n last index k env i ∧
      Assigned n last index (k + 1) (env ++ i.writes) is

omit [DecidableEq ρ] in
theorem Assigned.at {n : Nat} {last : ρ → Option Nat} {index : ρ → Nat} {k : Nat} {env : List ρ}
    {is : List (access ρ)} (h : Assigned n last index k env is) {m : Nat} {i : access ρ}
    (hi : is[m]? = some i) :
    Placed n last index (k + m) (env ++ (is.take m).flatMap access.writes) i := by
  induction is generalizing k env m with
  | nil => cases hi
  | cons i' is ih =>
    obtain ⟨hplaced, hrest⟩ := h
    cases m with
    | zero =>
      obtain rfl := Option.some.inj hi
      simpa using hplaced
    | succ m =>
      have hnext := ih hrest hi
      rwa [List.append_assoc, ← List.flatMap_cons, ← List.take_succ_cons, Nat.add_assoc,
        Nat.add_comm 1 m] at hnext

/-! ## One instruction -/

section steps

variable {n k : Nat} {last : ρ → Option Nat} {env : List ρ} {s s' : places ρ}

/-- The places taken are those of the live registers. -/
structure Good (n : Nat) (last : ρ → Option Nat) (k : Nat) (env : List ρ) (s : places ρ) : Prop where
  nodup : env.Nodup
  placed : ∀ r ∈ env, is_live last k r → s.index r < n ∧ s.free (s.index r) = false
  apart : ∀ r ∈ env, ∀ r' ∈ env, is_live last k r → is_live last k r' →
    s.index r = s.index r' → r = r'
  taken : ∀ i < n, s.free i = false → ∃ r ∈ env, is_live last k r ∧ s.index r = i

theorem first_free_some {free : Nat → Bool} {i : Nat} (h : first_free n free = some i) :
    i < n ∧ free i = true :=
  ⟨List.mem_range.mp (List.mem_of_find?_eq_some h), List.find?_some h⟩

theorem take_spec {w : ρ} (h : take n last s w = some s') : ∃ i < n, s.free i = true ∧
    s' = ⟨Function.update s.free i (last w = none), Function.update s.index w i⟩ := by
  obtain ⟨i, hi, h⟩ := Option.bind_eq_some_iff.mp h
  obtain ⟨hlt, hfree⟩ := first_free_some hi
  exact ⟨i, hlt, hfree, (Option.some.inj h).symm⟩

/-- A new register. -/
theorem take_good {w : ρ} (h : Good n last k env s) (hfresh : w ∉ env)
    (hlater : ∀ l, last w = some l → k < l) (htake : take n last s w = some s') :
    Good n last k (env ++ [w]) s' := by
  obtain ⟨i, hi, hfree, rfl⟩ := take_spec htake
  have hold : ∀ r ∈ env, Function.update s.index w i r = s.index r := by
    intro r hr
    exact Function.update_of_ne (ne_of_mem_of_not_mem hr hfresh) _ _
  have hother : ∀ r ∈ env, is_live last k r → s.index r ≠ i := by
    intro r hr hlive he
    have := (h.placed r hr hlive).2
    rw [he, hfree] at this
    cases this
  refine ⟨?_, ?_, ?_, ?_⟩
  · refine List.nodup_append.mpr ⟨h.nodup, List.nodup_singleton w, ?_⟩
    intro r hr r' hr'
    rw [List.mem_singleton.mp hr']
    exact ne_of_mem_of_not_mem hr hfresh
  · intro r hr hlive
    rcases List.mem_append.mp hr with hr | hr
    · simp only [hold r hr, Function.update_of_ne (hother r hr hlive)]
      exact h.placed r hr hlive
    · obtain rfl := List.mem_singleton.mp hr
      obtain ⟨l, hl, -⟩ := is_live_iff.mp hlive
      simp [hi, hl]
  · intro r hr r' hr' hlive hlive' he
    rcases List.mem_append.mp hr with hmem | hmem <;>
      rcases List.mem_append.mp hr' with hmem' | hmem'
    · simp only [hold r hmem, hold r' hmem'] at he
      exact h.apart r hmem r' hmem' hlive hlive' he
    · obtain rfl := List.mem_singleton.mp hmem'
      simp only [hold r hmem, Function.update_self] at he
      exact absurd he (hother r hmem hlive)
    · obtain rfl := List.mem_singleton.mp hmem
      simp only [hold r' hmem', Function.update_self] at he
      exact absurd he.symm (hother r' hmem' hlive')
    · rw [List.mem_singleton.mp hmem, List.mem_singleton.mp hmem']
  · intro j hj hused
    by_cases hji : j = i
    · subst hji
      simp only [Function.update_self, decide_eq_false_iff_not] at hused
      obtain ⟨l, hl⟩ := Option.ne_none_iff_exists'.mp hused
      refine ⟨w, by simp, is_live_iff.mpr ⟨l, hl, Nat.le_of_lt (hlater l hl)⟩, by simp⟩
    · simp only [Function.update_of_ne hji] at hused
      obtain ⟨r, hr, hlive, hindex⟩ := h.taken j hj hused
      exact ⟨r, List.mem_append_left _ hr, hlive, (hold r hr).trans hindex⟩

/-- There is a place when fewer registers are live than there are places. -/
theorem take_isSome (h : Good n last k env s) (w : ρ)
    (hroom : (env.filter (is_live last k)).length < n) : ∃ s', take n last s w = some s' := by
  cases hfree : first_free n s.free with
  | some i => exact ⟨_, by simp only [take, hfree, Option.bind_eq_bind, Option.bind_some]; rfl⟩
  | none =>
    -- all places would be those of live registers
    have hsub : List.range n ⊆ (env.filter (is_live last k)).map s.index := by
      intro i hi
      have hused : s.free i = false := by simpa using List.find?_eq_none.mp hfree i hi
      obtain ⟨r, hr, hlive, hindex⟩ := h.taken i (List.mem_range.mp hi) hused
      exact List.mem_map.mpr ⟨r, List.mem_filter.mpr ⟨hr, hlive⟩, hindex⟩
    have hlen := (List.nodup_range.subperm hsub).length_le
    simp only [List.length_range, List.length_map] at hlen
    omega

theorem take_index {w : ρ} (h : take n last s w = some s') (r : ρ) (hr : r ≠ w) :
    s'.index r = s.index r := by
  obtain ⟨i, -, -, rfl⟩ := take_spec h
  exact Function.update_of_ne hr _ _

/-- All the registers that an instruction writes. -/
theorem takes_good {ws : List ρ} (h : Good n last k env s) (hnodup : ws.Nodup)
    (hfresh : ∀ w ∈ ws, w ∉ env) (hlater : ∀ w ∈ ws, ∀ l, last w = some l → k < l)
    (htake : ws.foldlM (take n last) s = some s') :
    Good n last k (env ++ ws) s' ∧ (∀ r ∉ ws, s'.index r = s.index r) ∧
      ∀ w ∈ ws, s'.index w < n ∧ ∀ r ∈ env, is_live last k r → s'.index w ≠ s'.index r := by
  induction ws generalizing env s with
  | nil =>
    obtain rfl := Option.some.inj htake
    exact ⟨by simpa using h, fun _ _ => rfl, fun w hw => absurd hw List.not_mem_nil⟩
  | cons w ws ih =>
    rw [List.foldlM_cons] at htake
    obtain ⟨s₁, htake₁, hrest⟩ := Option.bind_eq_some_iff.mp htake
    obtain ⟨hw, hnodup'⟩ := List.nodup_cons.mp hnodup
    have hgood := take_good h (hfresh w (by simp)) (hlater w (by simp)) htake₁
    have hfresh' : ∀ w' ∈ ws, w' ∉ env ++ [w] := by
      intro w' hw' hmem
      rcases List.mem_append.mp hmem with hmem | hmem
      · exact hfresh w' (List.mem_cons_of_mem _ hw') hmem
      · exact hw (List.mem_singleton.mp hmem ▸ hw')
    obtain ⟨hgood', hindex, hplaced⟩ := ih hgood hnodup' hfresh'
      (fun w' hw' => hlater w' (List.mem_cons_of_mem _ hw')) hrest
    rw [List.append_assoc, List.singleton_append] at hgood'
    refine ⟨hgood', ?_, ?_⟩
    · intro r hr
      rw [List.mem_cons, not_or] at hr
      rw [hindex r hr.2, take_index htake₁ r hr.1]
    · intro w' hw'
      rcases List.mem_cons.mp hw' with rfl | hw'
      · -- its place was free, so no live register has it
        obtain ⟨i, hi, hfree, rfl⟩ := take_spec htake₁
        rw [hindex w' hw]
        refine ⟨by simpa using hi, ?_⟩
        intro r hr hlive he
        have hrw : r ≠ w' := ne_of_mem_of_not_mem hr (hfresh w' (by simp))
        have hrws : r ∉ ws := fun hmem => hfresh r (List.mem_cons_of_mem _ hmem) hr
        rw [hindex r hrws] at he
        simp only [Function.update_self, Function.update_of_ne hrw] at he
        have hused := (h.placed r hr hlive).2
        rw [← he, hfree] at hused
        cases hused
      · obtain ⟨hlt, hne⟩ := hplaced w' hw'
        exact ⟨hlt, fun r hr => hne r (List.mem_append_left _ hr)⟩

theorem takes_isSome {ws : List ρ} (h : Good n last k env s) (hnodup : ws.Nodup)
    (hfresh : ∀ w ∈ ws, w ∉ env) (hlater : ∀ w ∈ ws, ∀ l, last w = some l → k < l)
    (hroom : ws ≠ [] → (env.filter (is_live last k)).length + ws.length ≤ n) :
    ∃ s', ws.foldlM (take n last) s = some s' := by
  induction ws generalizing env s with
  | nil => exact ⟨s, rfl⟩
  | cons w ws ih =>
    have hroom' := hroom (by simp)
    rw [List.length_cons] at hroom'
    obtain ⟨s₁, htake₁⟩ := take_isSome h w (by omega)
    obtain ⟨hw, hnodup'⟩ := List.nodup_cons.mp hnodup
    have hgood := take_good h (hfresh w (by simp)) (hlater w (by simp)) htake₁
    have hfresh' : ∀ w' ∈ ws, w' ∉ env ++ [w] := by
      intro w' hw' hmem
      rcases List.mem_append.mp hmem with hmem | hmem
      · exact hfresh w' (List.mem_cons_of_mem _ hw') hmem
      · exact hw (List.mem_singleton.mp hmem ▸ hw')
    obtain ⟨s', hs'⟩ := ih hgood hnodup' hfresh'
      (fun w' hw' => hlater w' (List.mem_cons_of_mem _ hw')) (by
        intro _
        have hone : ([w].filter (is_live last k)).length ≤ 1 := List.length_filter_le _ _
        rw [List.filter_append, List.length_append]
        omega)
    refine ⟨s', ?_⟩
    rw [List.foldlM_cons, htake₁]
    exact hs'

omit [DecidableEq ρ] in
/-- The places given back. -/
theorem releases_spec (last : ρ → Option Nat) (k : Nat) (s : places ρ) (rs : List ρ) :
    (rs.foldl (release last k) s).index = s.index ∧
    ∀ i, (rs.foldl (release last k) s).free i = true ↔
      s.free i = true ∨ ∃ r ∈ rs, last r = some k ∧ s.index r = i := by
  induction rs generalizing s with
  | nil => simp
  | cons r rs ih =>
    obtain ⟨hindex, hfree⟩ := ih (release last k s r)
    have hkeep : (release last k s r).index = s.index := by
      unfold release
      split_ifs <;> rfl
    refine ⟨by rw [List.foldl_cons, hindex, hkeep], ?_⟩
    intro i
    rw [List.foldl_cons, hfree, hkeep]
    unfold release
    split_ifs with hlast
    · by_cases hi : i = s.index r
      · subst hi
        simp [hlast]
      · simp [Function.update_of_ne hi, hlast, Ne.symm hi]
    · simp [hlast]

omit [DecidableEq ρ] in
theorem releases_good {rs : List ρ} (h : Good n last k env s) (hreads : ∀ r ∈ rs, r ∈ env)
    (hends : ∀ r ∈ env, last r = some k → r ∈ rs) :
    Good n last (k + 1) env (rs.foldl (release last k) s) := by
  obtain ⟨hindex, hfree⟩ := releases_spec last k s rs
  have hlive : ∀ {r}, is_live last (k + 1) r → is_live last k r := by
    intro r hr
    obtain ⟨l, hl, hle⟩ := is_live_iff.mp hr
    exact is_live_iff.mpr ⟨l, hl, by omega⟩
  refine ⟨h.nodup, ?_, ?_, ?_⟩
  · intro r hr hr'
    obtain ⟨hlt, hused⟩ := h.placed r hr (hlive hr')
    rw [hindex]
    refine ⟨hlt, ?_⟩
    rw [Bool.eq_false_iff]
    intro hf
    rcases (hfree _).mp hf with hf | ⟨r', hr₁, hlast, he⟩
    · rw [hused] at hf
      cases hf
    · -- the register given back is another one, and it was live too
      have hlive' : is_live last k r' := is_live_iff.mpr ⟨k, hlast, Nat.le_refl k⟩
      obtain rfl := h.apart r' (hreads r' hr₁) r hr hlive' (hlive hr') he
      obtain ⟨l, hl, hle⟩ := is_live_iff.mp hr'
      rw [hlast] at hl
      have := Option.some.inj hl
      omega
  · intro r hr r' hr' hr₁ hr₁' he
    rw [hindex] at he
    exact h.apart r hr r' hr' (hlive hr₁) (hlive hr₁') he
  · intro i hi hused
    have hnot : ¬ (s.free i = true ∨ ∃ r ∈ rs, last r = some k ∧ s.index r = i) := by
      rw [← hfree, hused]
      simp
    rw [not_or, Bool.not_eq_true] at hnot
    obtain ⟨r, hr, hr₁, he⟩ := h.taken i hi hnot.1
    refine ⟨r, hr, ?_, by rw [hindex, he]⟩
    obtain ⟨l, hl, hle⟩ := is_live_iff.mp hr₁
    refine is_live_iff.mpr ⟨l, hl, ?_⟩
    rcases Nat.eq_or_lt_of_le hle with rfl | hlt
    · exact absurd ⟨r, hends r hr hl, hl, he⟩ hnot.2
    · exact hlt

/-- One instruction: what it writes gets places, and the rest of the scan starts from
    places that are good again. -/
theorem step_good {i : access ρ} (h : Good n last k env s) (hi : Sound last k env i)
    (hstep : step n last k s i = some s') : Good n last (k + 1) (env ++ i.writes) s' ∧
      Placed n last s'.index k env i ∧ ∀ r ∈ env, s'.index r = s.index r := by
  obtain ⟨s₁, htakes, hs'⟩ := Option.bind_eq_some_iff.mp hstep
  obtain rfl := Option.some.inj hs'
  obtain ⟨hgood, hindex, hplaced⟩ := takes_good h hi.nodup hi.fresh hi.later htakes
  obtain ⟨hsame, -⟩ := releases_spec last k s₁ i.reads
  refine ⟨releases_good hgood ?_ ?_, ?_, ?_⟩
  · exact fun r hr => List.mem_append_left _ (hi.reads r hr).1
  · intro r hr hlast
    rcases List.mem_append.mp hr with hr | hr
    · exact hi.ends r hr hlast
    · exact absurd (hi.later r hr k hlast) (Nat.lt_irrefl k)
  · rw [hsame]
    refine ⟨fun w hw => (hplaced w hw).1, fun w hw => (hplaced w hw).2, ?_⟩
    intro w hw w' hw' hread hread' he
    have hlive : ∀ w ∈ i.writes, last w ≠ none → is_live last k w := by
      intro w hw hread
      obtain ⟨l, hl⟩ := Option.ne_none_iff_exists'.mp hread
      exact is_live_iff.mpr ⟨l, hl, Nat.le_of_lt (hi.later w hw l hl)⟩
    exact hgood.apart w (List.mem_append_right _ hw) w' (List.mem_append_right _ hw')
      (hlive w hw hread) (hlive w' hw' hread') he
  · intro r hr
    rw [hsame]
    exact hindex r fun hw => hi.fresh r hw hr

/-! ## The whole scan -/

theorem scan_index {is : List (access ρ)} (hssa : Ssa last k env is) (h : Good n last k env s)
    (hscan : scan n last k is s = some s') : ∀ r ∈ env, s'.index r = s.index r := by
  induction is generalizing k env s with
  | nil =>
    obtain rfl := Option.some.inj hscan
    exact fun _ _ => rfl
  | cons i is ih =>
    obtain ⟨s₁, hstep, hrest⟩ := Option.bind_eq_some_iff.mp hscan
    obtain ⟨hgood, -, hindex⟩ := step_good h hssa.1 hstep
    intro r hr
    rw [ih hssa.2 hgood hrest r (List.mem_append_left _ hr), hindex r hr]

/-- The places of a scan that succeeds. -/
theorem scan_assigned {is : List (access ρ)} (hssa : Ssa last k env is)
    (h : Good n last k env s) (hscan : scan n last k is s = some s') :
    Assigned n last s'.index k env is := by
  induction is generalizing k env s with
  | nil => trivial
  | cons i is ih =>
    obtain ⟨s₁, hstep, hrest⟩ := Option.bind_eq_some_iff.mp hscan
    obtain ⟨hgood, hplaced, hindex⟩ := step_good h hssa.1 hstep
    refine ⟨?_, ih hssa.2 hgood hrest⟩
    -- later instructions leave the places of the registers defined so far
    have hkeep := scan_index hssa.2 hgood hrest
    have hw : ∀ w ∈ i.writes, s'.index w = s₁.index w :=
      fun w hw => hkeep w (List.mem_append_right _ hw)
    refine ⟨?_, ?_, ?_⟩
    · intro w hmem
      rw [hw w hmem]
      exact hplaced.lt w hmem
    · intro w hmem r hr hlive
      rw [hw w hmem, hkeep r (List.mem_append_left _ hr)]
      exact hplaced.live w hmem r hr hlive
    · intro w hmem w' hmem' hread hread' he
      rw [hw w hmem, hw w' hmem'] at he
      exact hplaced.apart w hmem w' hmem' hread hread' he

/-- The scan succeeds when what is live fits. -/
theorem scan_isSome {is : List (access ρ)} (hssa : Ssa last k env is) (hfits : Fits n last k env is)
    (h : Good n last k env s) : ∃ s', scan n last k is s = some s' := by
  induction is generalizing k env s with
  | nil => exact ⟨s, rfl⟩
  | cons i is ih =>
    obtain ⟨s₁, htakes⟩ := takes_isSome h hssa.1.nodup hssa.1.fresh hssa.1.later hfits.1
    have hstep : step n last k s i = some (i.reads.foldl (release last k) s₁) := by
      simp only [step, htakes, Option.bind_eq_bind, Option.bind_some]
    obtain ⟨hgood, -, -⟩ := step_good h hssa.1 hstep
    obtain ⟨s', hs'⟩ := ih hssa.2 hfits.2 hgood
    refine ⟨s', ?_⟩
    rw [scan, hstep]
    exact hs'

/-- A scan in two parts. -/
theorem scan_append {is js : List (access ρ)} (hscan : scan n last k (is ++ js) s = some s') :
    ∃ s₁, scan n last k is s = some s₁ ∧ scan n last (k + is.length) js s₁ = some s' := by
  induction is generalizing k s with
  | nil => exact ⟨s, rfl, hscan⟩
  | cons i is ih =>
    obtain ⟨s₀, hstep, hrest⟩ := Option.bind_eq_some_iff.mp hscan
    obtain ⟨s₁, hfirst, hsecond⟩ := ih hrest
    refine ⟨s₁, ?_, ?_⟩
    · rw [scan, hstep]
      exact hfirst
    · rw [List.length_cons, Nat.add_comm is.length, ← Nat.add_assoc]
      exact hsecond

omit [DecidableEq ρ] in
theorem ssa_append {is js : List (access ρ)} (hssa : Ssa last k env (is ++ js)) :
    Ssa last k env is ∧ Ssa last (k + is.length) (env ++ is.flatMap access.writes) js := by
  induction is generalizing k env with
  | nil => exact ⟨trivial, by simpa using hssa⟩
  | cons i is ih =>
    obtain ⟨hfirst, hsecond⟩ := ih hssa.2
    refine ⟨⟨hssa.1, hfirst⟩, ?_⟩
    rw [List.length_cons, Nat.add_comm is.length, ← Nat.add_assoc, List.flatMap_cons,
      ← List.append_assoc]
    exact hsecond

/-- The places after a scan. -/
theorem scan_good {is : List (access ρ)} (hssa : Ssa last k env is) (h : Good n last k env s)
    (hscan : scan n last k is s = some s') :
    Good n last (k + is.length) (env ++ is.flatMap access.writes) s' := by
  induction is generalizing k env s with
  | nil =>
    obtain rfl := Option.some.inj hscan
    simpa using h
  | cons i is ih =>
    obtain ⟨s₁, hstep, hrest⟩ := Option.bind_eq_some_iff.mp hscan
    have hnext := ih hssa.2 (step_good h hssa.1 hstep).1 hrest
    rw [List.length_cons, Nat.add_comm is.length, ← Nat.add_assoc, List.flatMap_cons,
      ← List.append_assoc]
    exact hnext

omit [DecidableEq ρ] in
theorem fits_of_forall {is : List (access ρ)} (h : ∀ m i, is[m]? = some i → i.writes ≠ [] →
    ((env ++ (is.take m).flatMap access.writes).filter (is_live last (k + m))).length +
      i.writes.length ≤ n) : Fits n last k env is := by
  induction is generalizing k env with
  | nil => trivial
  | cons i is ih =>
    refine ⟨by simpa using h 0 i rfl, ih ?_⟩
    intro m i' hi'
    have hnext := h (m + 1) i' hi'
    rw [List.take_succ_cons, List.flatMap_cons, ← List.append_assoc, Nat.add_comm m,
      ← Nat.add_assoc] at hnext
    exact hnext

omit [DecidableEq ρ] in
/-- Before the first instruction every place is free. -/
theorem good_start (n : Nat) (last : ρ → Option Nat) (index : ρ → Nat) :
    Good n last 0 [] ⟨fun _ => true, index⟩ := by
  refine ⟨List.nodup_nil, ?_, ?_, ?_⟩
  · exact fun r hr => absurd hr List.not_mem_nil
  · exact fun r hr => absurd hr List.not_mem_nil
  · intro i _ hused
    cases hused

end steps

/-! ## The same code in other surroundings -/

section parts

variable {n k : Nat} {last last' : ρ → Option Nat} {s s' : places ρ}

theorem takes_congr {ws : List ρ} (h : ∀ w ∈ ws, last w = none ↔ last' w = none) (s : places ρ) :
    ws.foldlM (take n last) s = ws.foldlM (take n last') s := by
  induction ws generalizing s with
  | nil => rfl
  | cons w ws ih =>
    have htake : take n last s w = take n last' s w := by
      simp only [take, h w List.mem_cons_self]
    rw [List.foldlM_cons, List.foldlM_cons, htake]
    refine congrArg _ (funext fun s₁ => ?_)
    exact ih (fun w' hw' => h w' (List.mem_cons_of_mem _ hw')) s₁

omit [DecidableEq ρ] in
theorem releases_congr {k' : Nat} {rs : List ρ} (h : ∀ r ∈ rs, last r = some k ↔ last' r = some k')
    (s : places ρ) : rs.foldl (release last k) s = rs.foldl (release last' k') s := by
  induction rs generalizing s with
  | nil => rfl
  | cons r rs ih =>
    have hrelease : release last k s r = release last' k' s r := by
      simp only [release, h r List.mem_cons_self]
    rw [List.foldl_cons, List.foldl_cons, hrelease]
    exact ih (fun r' hr' => h r' (List.mem_cons_of_mem _ hr')) _

theorem step_congr {k' : Nat} {i : access ρ} (hwrites : ∀ w ∈ i.writes, last w = none ↔ last' w = none)
    (hreads : ∀ r ∈ i.reads, last r = some k ↔ last' r = some k') (s : places ρ) :
    step n last k s i = step n last' k' s i := by
  unfold step
  rw [takes_congr hwrites]
  refine congrArg _ (funext fun s₁ => ?_)
  rw [releases_congr hreads]

/-- The scan looks at the last reads of the registers in the code only. -/
theorem scan_congr {is : List (access ρ)}
    (h : ∀ i ∈ is, ∀ r, r ∈ i.reads ∨ r ∈ i.writes → last r = last' r) :
    scan n last k is s = scan n last' k is s := by
  induction is generalizing k s with
  | nil => rfl
  | cons i is ih =>
    have hi := h i List.mem_cons_self
    have hstep : step n last k s i = step n last' k s i := by
      apply step_congr
      · intro w hw
        rw [hi w (.inr hw)]
      · intro r hr
        rw [hi r (.inl hr)]
    rw [scan, scan, hstep]
    refine congrArg _ (funext fun s₁ => ?_)
    exact ih fun i' hi' => h i' (List.mem_cons_of_mem _ hi')

theorem takes_index {ws : List ρ} (h : ws.foldlM (take n last) s = some s') {r : ρ} (hr : r ∉ ws) :
    s'.index r = s.index r := by
  induction ws generalizing s with
  | nil =>
    obtain rfl := Option.some.inj h
    rfl
  | cons w ws ih =>
    rw [List.foldlM_cons] at h
    obtain ⟨s₁, htake, hrest⟩ := Option.bind_eq_some_iff.mp h
    rw [ih hrest fun hmem => hr (List.mem_cons_of_mem _ hmem)]
    exact take_index htake r fun he => hr (he ▸ List.mem_cons_self)

/-- Code gives no other place to a register that it does not write. -/
theorem scan_frame {is : List (access ρ)} (hscan : scan n last k is s = some s') {r : ρ}
    (hr : ∀ i ∈ is, r ∉ i.writes) : s'.index r = s.index r := by
  induction is generalizing k s with
  | nil =>
    obtain rfl := Option.some.inj hscan
    rfl
  | cons i is ih =>
    obtain ⟨s₁, hstep, hrest⟩ := Option.bind_eq_some_iff.mp hscan
    obtain ⟨s₂, htakes, hs₁⟩ := Option.bind_eq_some_iff.mp hstep
    obtain rfl := Option.some.inj hs₁
    rw [ih hrest fun i' hi' => hr i' (List.mem_cons_of_mem _ hi'), (releases_spec last k s₂ i.reads).1]
    exact takes_index htakes (hr i List.mem_cons_self)

/-- Instructions that neither read nor write can be left out when the last reads are numbered
    without them. -/
theorem scan_filter {α : Type} (f : α → access ρ) (p : α → Bool)
    (hidle : ∀ x, p x = false → f x = ⟨[], []⟩) (hnone : ∀ r, last r = none ↔ last' r = none)
    (is : List α) (k k' : Nat)
    (hat : ∀ m x, is[m]? = some x → p x = true → ∀ r,
      last r = some (k + m) ↔ last' r = some (k' + (is.take m).countP p)) (s : places ρ) :
    scan n last k (is.map f) s = scan n last' k' ((is.filter p).map f) s := by
  induction is generalizing k k' s with
  | nil => rfl
  | cons x is ih =>
    have hrest : ∀ m y, is[m]? = some y → p y = true → ∀ r,
        last r = some (k + 1 + m) ↔ last' r = some (k' + [x].countP p + (is.take m).countP p) := by
      intro m y hy hp r
      have := hat (m + 1) y hy hp r
      rw [List.take_succ_cons, ← List.singleton_append, List.countP_append] at this
      rwa [Nat.add_assoc k, Nat.add_comm 1 m, Nat.add_assoc k']
    cases hx : p x with
    | false =>
      have hstep : step n last k s (f x) = some s := by
        rw [hidle x hx]
        rfl
      have hcount : [x].countP p = 0 := by simp [hx]
      rw [List.map_cons, scan, hstep, List.filter_cons_of_neg (by simp [hx])]
      rw [hcount] at hrest
      exact ih (k + 1) k' hrest s
    | true =>
      have hstep : step n last k s (f x) = step n last' k' s (f x) := by
        apply step_congr
        · exact fun w _ => hnone w
        · exact fun r _ => hat 0 x rfl hx r
      have hcount : [x].countP p = 1 := by simp [hx]
      rw [List.map_cons, scan, hstep, List.filter_cons_of_pos hx, List.map_cons, scan]
      refine congrArg _ (funext fun s₁ => ?_)
      rw [hcount] at hrest
      exact ih (k + 1) (k' + 1) hrest s₁

end parts

end LinearScan
