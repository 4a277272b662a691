import Mathlib.Data.List.Basic
import Mathlib.Data.List.Infix
import Mathlib.Data.List.TakeWhile
import Mathlib.Tactic.Common

/-! # The filter of the environment

    The variables of the host are copied to the guest, but for those that are added or removed on
    the command line. `arm_load_image.c` and `arm64_load_image.c` have the same two functions for
    this.

    The comparison stops at a `=` of the first string and does not look for the end of a name in
    the second one. It does not look for the NUL either.
-/

namespace Umeq.Loader

/-! ## Strings -/

/-- A string of a C program: the characters before its NUL. -/
structure cstring where
  chars : List UInt8
  noNul : 0 ∉ chars
  deriving DecidableEq

def text (s : String) : List UInt8 := s.toList.map fun c => UInt8.ofNat c.toNat

def eq_sign : UInt8 := 0x3d

/-- The part before the first `=`, or all of the string. -/
def cstring.name (s : cstring) : List UInt8 := s.chars.takeWhile (· ≠ eq_sign)

/-! ## The functions -/

/-- The loop of `strcmp_env`, with the characters that it stops at. `none` is a read past the NUL
    of the first string. -/
def strcmp_env_loop : List UInt8 → List UInt8 → Option (UInt8 × UInt8)
  | [], [] => none
  | [], d :: _ => some (0, d)
  | c :: _, [] => some (c, 0)
  | c :: s1, d :: s2 =>
    if c = d ∧ s1.headD 0 ≠ eq_sign then strcmp_env_loop s1 s2 else some (c, d)

def strcmp_env (s1 s2 : cstring) : Option Int :=
  (strcmp_env_loop s1.chars s2.chars).map fun r =>
    if r.1 < r.2 then -1 else if r.1 ≠ r.2 then 1 else 0

/-- One of the two loops over a table of strings. -/
def some_equal (current : cstring) : List cstring → Option Bool
  | [] => some false
  | entry :: entries => do
    if (← strcmp_env current entry) = 0 then return true
    some_equal current entries

def internal_marker : cstring := ⟨text "__UMEQ_INTERNAL_MAYBE_PTRACED__=1", by decide⟩

/-- The result, and what `maybe_ptraced` is after it. -/
def is_environment_variable_copy (current : cstring) (additionnal_env unset_env : List cstring)
    (maybe_ptraced : Bool) : Option (Bool × Bool) := do
  if current = internal_marker then return (false, true)
  if ← some_equal current additionnal_env then return (false, maybe_ptraced)
  if ← some_equal current unset_env then return (false, maybe_ptraced)
  if current.chars.length = 0 then return (false, maybe_ptraced)
  return (true, maybe_ptraced)

/-! ## What it is for -/

/-- The variables that are copied. -/
structure Kept (current : cstring) (additionnal_env unset_env : List cstring) : Prop where
  nonempty : current.chars ≠ []
  not_internal : current ≠ internal_marker
  not_added : ∀ entry ∈ additionnal_env, current.name ≠ entry.name
  not_unset : ∀ entry ∈ unset_env, current.name ≠ entry.name

instance (current : cstring) (additionnal_env unset_env : List cstring) :
    Decidable (Kept current additionnal_env unset_env) :=
  decidable_of_iff (current.chars ≠ [] ∧ current ≠ internal_marker ∧
      (∀ entry ∈ additionnal_env, current.name ≠ entry.name) ∧
      ∀ entry ∈ unset_env, current.name ≠ entry.name)
    ⟨fun h => ⟨h.1, h.2.1, h.2.2.1, h.2.2.2⟩, fun h => ⟨h.1, h.2, h.3, h.4⟩⟩

/-! ## When it does that -/

/-- What is compared: the text before the first `=` after the first character. -/
def compared : List UInt8 → Option (List UInt8)
  | [] => none
  | c :: s => if eq_sign ∈ s then some (c :: s.takeWhile (· ≠ eq_sign)) else none

/-- There is such a `=`, and an entry begins with that text exactly when an entry has the name of the
    string. Or there is none, and no entry has the name; the empty string has to be no entry
    only. -/
def filter_right (current : cstring) (entries : List cstring) : Prop :=
  current = internal_marker ∨
    match compared current.chars with
    | some text => (∃ entry ∈ entries, text <+: entry.chars) ↔ ∃ entry ∈ entries, current.name = entry.name
    | none =>
      if current.chars = [] then current ∉ entries else ∀ entry ∈ entries, current.name ≠ entry.name

/-! ## The comparison -/

section comparison

variable {c : UInt8} {s1 s2 text : List UInt8}

/-- A character that the loop passes. -/
theorem compared_cons (h : s1.headD 0 ≠ eq_sign) : compared (c :: s1) = (compared s1).map (c :: ·) := by
  cases s1 with
  | nil => rfl
  | cons d s =>
    have hd : d ≠ eq_sign := h
    unfold compared
    by_cases hmem : eq_sign ∈ s
    · simp [hmem, hd]
    · simp [hmem, hd.symm]

/-- The loop stops at equal characters when the second string begins with the text. -/
theorem loop_some (s2 : List UInt8) (h : compared s1 = some text) (h1 : 0 ∉ s1) :
    ∃ r, strcmp_env_loop s1 s2 = some r ∧ (r.1 = r.2 ↔ text <+: s2) := by
  induction s1 generalizing s2 text with
  | nil => cases h
  | cons c s1 ih =>
    have hc : c ≠ 0 := fun h0 => h1 (h0 ▸ List.mem_cons_self)
    have htail : 0 ∉ s1 := fun h0 => h1 (List.mem_cons_of_mem c h0)
    have hhead : ∃ rest, text = c :: rest := by
      simp only [compared] at h
      split_ifs at h
      exact ⟨_, (Option.some.inj h).symm⟩
    obtain ⟨rest, rfl⟩ := hhead
    cases s2 with
    | nil => exact ⟨(c, 0), rfl, iff_of_false hc (by simp)⟩
    | cons d s2 =>
      unfold strcmp_env_loop
      by_cases hcd : c = d
      · by_cases hstop : s1.headD 0 = eq_sign
        -- the next character is a `=`: the text is one character
        · rw [if_neg fun hand => hand.2 hstop]
          refine ⟨(c, d), rfl, iff_of_true hcd ?_⟩
          obtain ⟨e, s, rfl⟩ : ∃ e s, s1 = e :: s := by
            cases s1 with
            | nil => exact absurd hstop (by decide)
            | cons e s => exact ⟨e, s, rfl⟩
          have he : e = eq_sign := hstop
          have hrest : rest = [] := by simpa [compared, he] using h.symm
          rw [hrest, hcd]
          exact ⟨s2, rfl⟩
        · rw [if_pos ⟨hcd, hstop⟩]
          rw [compared_cons hstop] at h
          obtain ⟨text, htext, hcons⟩ := Option.map_eq_some_iff.mp h
          obtain ⟨-, rfl⟩ := List.cons.inj hcons
          obtain ⟨r, hr, hiff⟩ := ih s2 htext htail
          exact ⟨r, hr, hiff.trans (by simp [List.cons_prefix_cons, hcd])⟩
      · rw [if_neg fun hand => hcd hand.1]
        exact ⟨(c, d), rfl, iff_of_false hcd fun hbegins => hcd (List.cons_prefix_cons.mp hbegins).1⟩

/-- Without a `=`, two equal strings are read past their NUL. -/
theorem loop_none (h : compared s1 = none) (h1 : 0 ∉ s1) (h2 : 0 ∉ s2) :
    strcmp_env_loop s1 s2 = none ∧ s1 = s2 ∨
      ∃ r, strcmp_env_loop s1 s2 = some r ∧ r.1 ≠ r.2 ∧ s1 ≠ s2 := by
  induction s1 generalizing s2 with
  | nil =>
    cases s2 with
    | nil => exact .inl ⟨rfl, rfl⟩
    | cons d s2 => exact .inr ⟨(0, d), rfl, fun h0 : 0 = d => h2 (h0 ▸ List.mem_cons_self), by simp⟩
  | cons c s1 ih =>
    have htail : 0 ∉ s1 := fun h0 => h1 (List.mem_cons_of_mem c h0)
    have hstop : s1.headD 0 ≠ eq_sign := by
      cases s1 with
      | nil => decide
      | cons e s =>
        intro he
        have hmem : eq_sign ∈ e :: s := he ▸ List.mem_cons_self
        simp [compared, hmem] at h
    cases s2 with
    | nil => exact .inr ⟨(c, 0), rfl, fun h0 : c = 0 => h1 (h0 ▸ List.mem_cons_self), by simp⟩
    | cons d s2 =>
      have htail2 : 0 ∉ s2 := fun h0 => h2 (List.mem_cons_of_mem d h0)
      unfold strcmp_env_loop
      by_cases hcd : c = d
      · rw [if_pos ⟨hcd, hstop⟩]
        rw [compared_cons hstop, Option.map_eq_none_iff] at h
        rcases ih h htail htail2 with ⟨hnone, heq⟩ | ⟨r, hr, hne, hdiff⟩
        · exact .inl ⟨hnone, by rw [hcd, heq]⟩
        · exact .inr ⟨r, hr, hne, fun heq => hdiff (List.cons.inj heq).2⟩
      · rw [if_neg fun hand => hcd hand.1]
        exact .inr ⟨(c, d), rfl, hcd, fun heq => hcd (List.cons.inj heq).1⟩

/-- The sign of the result. -/
theorem sign_zero (a b : UInt8) : (if a < b then (-1 : Int) else if a ≠ b then 1 else 0) = 0 ↔ a = b := by
  by_cases h : a = b
  · simp [h]
  · by_cases hlt : a < b <;> simp [h, hlt]

end comparison

/-! ## The tables -/

section tables

variable {current : cstring} {text : List UInt8}

theorem strcmp_env_some (h : compared current.chars = some text) (entry : cstring) :
    ∃ r, strcmp_env current entry = some r ∧ (r = 0 ↔ text <+: entry.chars) := by
  obtain ⟨r, hr, hiff⟩ := loop_some entry.chars h current.noNul
  exact ⟨_, by rw [strcmp_env, hr]; rfl, (sign_zero r.1 r.2).trans hiff⟩

theorem strcmp_env_none (h : compared current.chars = none) (entry : cstring) :
    strcmp_env current entry = none ∧ current = entry ∨
      ∃ r, strcmp_env current entry = some r ∧ r ≠ 0 ∧ current ≠ entry := by
  rcases loop_none h current.noNul entry.noNul with ⟨hnone, heq⟩ | ⟨r, hr, hne, hdiff⟩
  · refine .inl ⟨by rw [strcmp_env, hnone]; rfl, ?_⟩
    cases current
    cases entry
    cases heq
    rfl
  · exact .inr ⟨_, by rw [strcmp_env, hr]; rfl, fun h0 => hne ((sign_zero r.1 r.2).mp h0),
      fun heq => hdiff (congrArg cstring.chars heq)⟩

/-- A table is searched for an entry that begins with the text. -/
theorem some_equal_some (h : compared current.chars = some text) (entries : List cstring) :
    some_equal current entries = some (decide (∃ entry ∈ entries, text <+: entry.chars)) := by
  induction entries with
  | nil => rfl
  | cons entry entries ih =>
    obtain ⟨r, hr, hiff⟩ := strcmp_env_some h entry
    unfold some_equal
    rw [hr, ih]
    by_cases h0 : r = 0
    · simp [h0, hiff.mp h0]
    · have hbegins : ¬ text <+: entry.chars := fun hbegins => h0 (hiff.mpr hbegins)
      simp [h0, hbegins]

/-- Nothing is equal to a string without a `=`, but the comparison with itself does not end. -/
theorem some_equal_none (h : compared current.chars = none) (entries : List cstring) :
    some_equal current entries = if current ∈ entries then none else some false := by
  induction entries with
  | nil => rfl
  | cons entry entries ih =>
    unfold some_equal
    rw [ih]
    rcases strcmp_env_none h entry with ⟨hnone, heq⟩ | ⟨r, hr, hne, hdiff⟩
    · have hmem : current ∈ entry :: entries := List.mem_cons.mpr (.inl heq)
      rw [hnone, if_pos hmem]
      rfl
    · simp [hr, hne, hdiff]

/-- The result for a string with a `=` after its first character. -/
theorem copy_some (h : compared current.chars = some text) (hmarker : current ≠ internal_marker)
    (additionnal_env unset_env : List cstring) (maybe_ptraced : Bool) :
    is_environment_variable_copy current additionnal_env unset_env maybe_ptraced =
      some (decide (¬ ∃ entry ∈ additionnal_env ++ unset_env, text <+: entry.chars), maybe_ptraced) := by
  have hlength : current.chars.length ≠ 0 := by
    intro h0
    rw [List.length_eq_zero_iff.mp h0] at h
    cases h
  unfold is_environment_variable_copy
  rw [some_equal_some h, some_equal_some h]
  simp only [hmarker, hlength, if_false, List.mem_append]
  have hor : (∃ entry, (entry ∈ additionnal_env ∨ entry ∈ unset_env) ∧ text <+: entry.chars) ↔
      (∃ entry ∈ additionnal_env, text <+: entry.chars) ∨ ∃ entry ∈ unset_env, text <+: entry.chars := by
    simp only [or_and_right, exists_or]
  by_cases ha : ∃ entry ∈ additionnal_env, text <+: entry.chars
  · simp [ha, hor]
  · by_cases hu : ∃ entry ∈ unset_env, text <+: entry.chars <;> simp [ha, hu, hor]

/-- The result for a string without one. -/
theorem copy_none (h : compared current.chars = none) (hmarker : current ≠ internal_marker)
    (additionnal_env unset_env : List cstring) (maybe_ptraced : Bool) :
    is_environment_variable_copy current additionnal_env unset_env maybe_ptraced =
      if current ∈ additionnal_env ++ unset_env then none
      else some (decide (current.chars ≠ []), maybe_ptraced) := by
  unfold is_environment_variable_copy
  rw [some_equal_none h, some_equal_none h]
  simp only [hmarker, if_false, List.mem_append]
  by_cases ha : current ∈ additionnal_env
  · simp [ha]
  · by_cases hu : current ∈ unset_env
    · simp [ha, hu]
    · by_cases h0 : current.chars = [] <;> simp [ha, hu, h0]

end tables

/-! ## The filter -/

section filter

variable (current : cstring) (additionnal_env unset_env : List cstring) (maybe_ptraced : Bool)

theorem kept_iff (hmarker : current ≠ internal_marker) : Kept current additionnal_env unset_env ↔
    current.chars ≠ [] ∧ ∀ entry ∈ additionnal_env ++ unset_env, current.name ≠ entry.name := by
  constructor
  · intro h
    refine ⟨h.nonempty, fun entry hentry => ?_⟩
    rcases List.mem_append.mp hentry with ha | hu
    · exact h.not_added entry ha
    · exact h.not_unset entry hu
  · rintro ⟨hne, hnames⟩
    exact ⟨hne, hmarker, fun entry ha => hnames entry (List.mem_append_left _ ha),
      fun entry hu => hnames entry (List.mem_append_right _ hu)⟩

/-- Two results, whatever is noted beside them. -/
theorem results_iff (b b' : Bool) : (∃ traced, some (b, maybe_ptraced) = some (b', traced)) ↔ b = b' := by
  simp

/-- The filter reads the strings only, and copies exactly the variables that are neither added nor
    removed, when the comparison by a prefix does not differ from the one of the names. -/
theorem environment_filtered :
    (∃ traced, is_environment_variable_copy current additionnal_env unset_env maybe_ptraced =
      some (decide (Kept current additionnal_env unset_env), traced)) ↔
      filter_right current (additionnal_env ++ unset_env) := by
  by_cases hmarker : current = internal_marker
  · have hkept : decide (Kept current additionnal_env unset_env) = false :=
      decide_eq_false fun h => h.not_internal hmarker
    refine iff_of_true ⟨true, ?_⟩ (.inl hmarker)
    unfold is_environment_variable_copy
    rw [hkept, if_pos hmarker]
    rfl
  have hkept := kept_iff current additionnal_env unset_env hmarker
  unfold filter_right
  rw [or_iff_right hmarker]
  cases h : compared current.chars with
  | some text =>
    have hne : current.chars ≠ [] := by
      intro h0
      rw [h0] at h
      cases h
    rw [copy_some h hmarker, results_iff, decide_eq_decide, hkept, and_iff_right hne]
    show _ ↔ ((∃ entry ∈ additionnal_env ++ unset_env, text <+: entry.chars) ↔ _)
    rw [← not_iff_not (b := ∃ entry ∈ additionnal_env ++ unset_env, current.name = entry.name)]
    simp only [not_exists, not_and, ne_eq]
  | none =>
    rw [copy_none h hmarker]
    show _ ↔ if current.chars = [] then current ∉ additionnal_env ++ unset_env
      else ∀ entry ∈ additionnal_env ++ unset_env, current.name ≠ entry.name
    by_cases hmem : current ∈ additionnal_env ++ unset_env
    -- the comparison of the string with itself goes on after the NUL
    · rw [if_pos hmem]
      refine iff_of_false (by simp) ?_
      split_ifs
      · exact fun hnot => hnot hmem
      · exact fun hnames => hnames current hmem rfl
    · rw [if_neg hmem, results_iff, decide_eq_decide, hkept]
      split_ifs with h0
      · exact iff_of_true (iff_of_false (fun hne => hne h0) fun hand => hand.1 h0) hmem
      · exact ⟨fun hiff => (hiff.mp h0).2, fun hnames => iff_of_true h0 ⟨h0, hnames⟩⟩

/-- A variable with a name is lost when the name of an entry goes on after it, and no entry has its
    name. -/
theorem filter_right_named {current : cstring} {entries : List cstring}
    (hmarker : current ≠ internal_marker) (hname : current.name ≠ []) (heq : eq_sign ∈ current.chars) :
    filter_right current entries ↔ ((∃ entry ∈ entries, current.name <+: entry.name) →
      ∃ entry ∈ entries, current.name = entry.name) := by
  have hcompared : compared current.chars = some current.name := by
    unfold cstring.name at hname ⊢
    cases h : current.chars with
    | nil => simp [h] at heq
    | cons c s =>
      rw [h] at hname heq
      by_cases hc : c = eq_sign
      · simp [hc] at hname
      · have hmem : eq_sign ∈ s := (List.mem_cons.mp heq).resolve_left fun h => hc h.symm
        simp [compared, hmem, hc]
  have hbegins (entry : cstring) : current.name <+: entry.chars ↔ current.name <+: entry.name := by
    constructor
    · rintro ⟨rest, hrest⟩
      have hpos : ∀ x ∈ current.name, decide (x ≠ eq_sign) = true := fun x hx =>
        List.mem_takeWhile_imp (p := fun x => decide (x ≠ eq_sign)) hx
      rw [cstring.name, cstring.name, ← hrest, List.takeWhile_append_of_pos hpos]
      exact List.prefix_append _ _
    · exact fun h => h.trans (List.takeWhile_prefix _)
  have hself (h : ∃ entry ∈ entries, current.name = entry.name) :
      ∃ entry ∈ entries, current.name <+: entry.name := by
    obtain ⟨entry, hentry, hsame⟩ := h
    exact ⟨entry, hentry, hsame ▸ List.prefix_rfl⟩
  unfold filter_right
  rw [or_iff_right hmarker, hcompared]
  simp only [hbegins]
  exact ⟨fun hiff => hiff.mp, fun himp => ⟨himp, hself⟩⟩

/-- FOO=1 is lost when FOOBAR is removed; FOO is copied although FOO=1 is added, and is read past
    its end when it is removed. -/
theorem environment_wrong :
    (is_environment_variable_copy ⟨text "FOO=1", by decide⟩ [] [⟨text "FOOBAR", by decide⟩] false =
        some (false, false) ∧
      Kept ⟨text "FOO=1", by decide⟩ [] [⟨text "FOOBAR", by decide⟩]) ∧
    (is_environment_variable_copy ⟨text "FOO", by decide⟩ [⟨text "FOO=1", by decide⟩] [] false =
        some (true, false) ∧
      ¬ Kept ⟨text "FOO", by decide⟩ [⟨text "FOO=1", by decide⟩] []) ∧
    is_environment_variable_copy ⟨text "FOO", by decide⟩ [] [⟨text "FOO", by decide⟩] false = none := by
  decide

end filter

end Umeq.Loader
