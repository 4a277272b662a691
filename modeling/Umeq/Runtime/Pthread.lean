import Umeq.Lib.Runs
import Mathlib.Data.Fintype.Pi
import Mathlib.Logic.Function.Basic

/-! # The mutex of `pthread.c`

    `ll_lock` and `ll_unlock` on one futex word: 0 is free, 1 is taken, 2 is taken
    with threads that may sleep. Any number of threads lock and unlock in turn, and
    their atomic steps interleave in any order.

    A point of a thread is named after the atomic step that it does next. The
    kernel tests the word and puts the thread to sleep in one step, wakes one
    sleeper if there is one, and may end a sleep at any time.
-/

namespace Umeq.Runtime

/-! ## The code -/

/-- Where a thread is. -/
inductive point where
  /-- Before `ll_lock`, at the swap from 0 to 1. -/
  | lock
  /-- At the swap from 1 to 2 of the loop. -/
  | claim
  /-- At `futex_wait`. -/
  | wait
  /-- Asleep in `futex_wait`. -/
  | asleep
  /-- At the swap from 0 to 2 that ends a round of the loop. -/
  | retry
  /-- After `ll_lock`, at the load of `ll_unlock`. -/
  | unlock
  /-- At the swap from `oldval` to 0. -/
  | release (oldval : Int)
  /-- At `futex_wake`. -/
  | wake
  deriving DecidableEq, Repr

variable {ι : Type}

/-- The futex word and the point of each thread. -/
structure mutex (ι : Type) where
  word : Int
  at_ : ι → point

/-- `__sync_val_compare_and_swap`: the new word and the old one. -/
def compare_and_swap (word oldval newval : Int) : Int × Int :=
  (if word = oldval then newval else word, word)

/-- A step of one thread on the word, and the point after it. Sleeping and waking are
    steps of the kernel. -/
def point.run (word : Int) : point → Option (Int × point)
  | .lock =>
    let (word, oldval) := compare_and_swap word 0 1
    some (word, if oldval ≠ 0 then .claim else .unlock)
  | .claim =>
    let (word, oldval) := compare_and_swap word 1 2
    some (word, if oldval ≠ 0 then .wait else .retry)
  | .wait => some (word, if word = 2 then .asleep else .retry)
  | .retry =>
    let (word, oldval) := compare_and_swap word 0 2
    some (word, if oldval = 0 then .unlock else .claim)
  | .unlock => some (word, .release word)
  | .release oldval =>
    let (word', old) := compare_and_swap word oldval 0
    some (word', if old = oldval then (if oldval > 1 then .wake else .lock) else .unlock)
  | .asleep | .wake => none

/-- What happens next: a step of a thread, the wake of at most one sleeper by an
    unlocker, or the end of a sleep that nobody asked for. -/
inductive event (ι : Type) where
  | step (t : ι)
  | wake (t : ι) (sleeper : Option ι)
  | spurious (sleeper : ι)

variable [DecidableEq ι]

def mutex.goto (s : mutex ι) (t : ι) (p : point) : mutex ι :=
  { s with at_ := Function.update s.at_ t p }

variable [Fintype ι]

def event.exec (s : mutex ι) : event ι → Option (mutex ι)
  | .step t => do
    let (word, p) ← (s.at_ t).run s.word
    some { s.goto t p with word := word }
  | .wake t none => if s.at_ t = .wake ∧ ∀ u, s.at_ u ≠ .asleep then some (s.goto t .lock) else none
  | .wake t (some u) =>
    if s.at_ t = .wake ∧ s.at_ u = .asleep then some ((s.goto t .lock).goto u .retry) else none
  | .spurious u => if s.at_ u = .asleep then some (s.goto u .retry) else none

/-- The threads before their first lock of a mutex that is free. -/
def mutex_runs (ι : Type) [DecidableEq ι] [Fintype ι] : Runs.System (mutex ι) (event ι) where
  init := ⟨0, fun _ => .lock⟩
  exec := event.exec

/-! ## Exclusion and wake-ups -/

/-- Between the return of `ll_lock` and the successful swap of `ll_unlock`. -/
def point.holds : point → Bool
  | .unlock | .release _ => true
  | _ => false

/-- Awake in the loop of `ll_lock`. -/
def point.retries : point → Bool
  | .claim | .wait | .retry => true
  | _ => false

/-- What holds of the word and of all threads together. -/
structure Inv (s : mutex ι) : Prop where
  one : ∀ t u, (s.at_ t).holds → (s.at_ u).holds → t = u
  free : s.word = 0 → ∀ t, ¬ (s.at_ t).holds
  taken : s.word ≠ 0 → (s.word = 1 ∨ s.word = 2) ∧ ∃ t, (s.at_ t).holds
  released : ∀ t v, s.at_ t = .release v → v = 1 ∨ v = 2
  asleep : ∀ t, s.at_ t = .asleep → s.word = 2 ∨ ∃ u, s.at_ u = .wake ∨ (s.at_ u).retries

section steps

variable {s : mutex ι} {t : ι} {w : Int} {p : point}

omit [DecidableEq ι] [Fintype ι] in
/-- What a step of a thread can do: stay outside, take the mutex, go on in
    `ll_unlock`, or free the mutex. -/
theorem run_cases (h : Inv s) (hrun : (s.at_ t).run s.word = some (w, p)) :
    ((s.at_ t).holds = false ∧ p.holds = false ∧ (w = s.word ∨ s.word = 1 ∧ w = 2) ∧
      ((s.at_ t).retries → p.retries ∨ w = 2) ∧ (p = .asleep → w = 2) ∧
      s.at_ t ≠ .wake ∧ s.at_ t ≠ .asleep) ∨
    ((s.at_ t).holds = false ∧ p = .unlock ∧ s.word = 0 ∧ (w = 1 ∧ s.at_ t = .lock ∨ w = 2)) ∨
    ((s.at_ t).holds = true ∧ p.holds = true ∧ w = s.word ∧ ∀ v, p = .release v → v = s.word) ∨
    ((s.at_ t).holds = true ∧ w = 0 ∧ (s.word = 1 ∧ p = .lock ∨ s.word = 2 ∧ p = .wake)) := by
  cases hq : s.at_ t with
  | lock =>
    simp only [hq, point.run, compare_and_swap, Option.some.injEq, Prod.mk.injEq] at hrun
    obtain ⟨rfl, rfl⟩ := hrun
    by_cases hw : s.word = 0 <;> simp [hw, point.holds, point.retries]
  | claim =>
    simp only [hq, point.run, compare_and_swap, Option.some.injEq, Prod.mk.injEq] at hrun
    obtain ⟨rfl, rfl⟩ := hrun
    by_cases hw : s.word = 0
    · simp [hw, point.holds, point.retries]
    · by_cases hw1 : s.word = 1 <;> simp [hw, hw1, point.holds, point.retries]
  | wait =>
    simp only [hq, point.run, Option.some.injEq, Prod.mk.injEq] at hrun
    obtain ⟨rfl, rfl⟩ := hrun
    by_cases hw : s.word = 2 <;> simp [hw, point.holds, point.retries]
  | retry =>
    simp only [hq, point.run, compare_and_swap, Option.some.injEq, Prod.mk.injEq] at hrun
    obtain ⟨rfl, rfl⟩ := hrun
    by_cases hw : s.word = 0 <;> simp [hw, point.holds, point.retries]
  | unlock =>
    simp only [hq, point.run, Option.some.injEq, Prod.mk.injEq] at hrun
    obtain ⟨rfl, rfl⟩ := hrun
    simp [point.holds]
  | release v =>
    simp only [hq, point.run, compare_and_swap, Option.some.injEq, Prod.mk.injEq] at hrun
    obtain ⟨rfl, rfl⟩ := hrun
    by_cases hw : s.word = v
    · rcases h.released t v hq with rfl | rfl <;> simp [hw, point.holds]
    · simp [hw, point.holds]
  | asleep | wake => simp [hq, point.run] at hrun

omit [Fintype ι] in
theorem goto_at (s : mutex ι) (t u : ι) (p : point) :
    (s.goto t p).at_ u = if u = t then p else s.at_ u :=
  Function.update_apply ..

omit [Fintype ι] in
theorem goto_holds (hp : p.holds = (s.at_ t).holds) (u : ι) :
    (if u = t then p else s.at_ u).holds = (s.at_ u).holds := by
  split_ifs with hu
  · rw [hp, hu]
  · rfl

omit [Fintype ι] in
/-- The thread stays outside. The others hold what they held. -/
theorem outside_inv (h : Inv s) (hq : (s.at_ t).holds = false) (hp : p.holds = false)
    (hw : w = s.word ∨ s.word = 1 ∧ w = 2) (hretry : (s.at_ t).retries → p.retries ∨ w = 2)
    (hsleep : p = .asleep → w = 2) (hwake : s.at_ t ≠ .wake) :
    Inv { s.goto t p with word := w } := by
  have hat : ∀ u, ({ s.goto t p with word := w } : mutex ι).at_ u = if u = t then p else s.at_ u :=
    fun u => goto_at s t u p
  have hother := goto_holds (hp.trans hq.symm)
  refine ⟨?_, ?_, ?_, ?_, ?_⟩
  · intro u u' hu hu'
    rw [hat, hother] at hu hu'
    exact h.one u u' hu hu'
  · intro hw0 u
    rw [hat, hother]
    refine h.free ?_ u
    rcases hw with hw | ⟨-, hw⟩ <;> simp_all
  · intro hw0
    have hne : s.word ≠ 0 := by
      rcases hw with hw | ⟨hw, -⟩ <;> simp_all
    obtain ⟨hone, u, hu⟩ := h.taken hne
    refine ⟨?_, u, by rw [hat, hother]; exact hu⟩
    rcases hw with hw | ⟨-, hw⟩ <;> simp_all
  · intro u v hu
    rw [hat] at hu
    split_ifs at hu with hut
    · rw [hu] at hp
      cases hp
    · exact h.released u v hu
  · intro u hu
    rw [hat] at hu
    split_ifs at hu with hut
    · exact .inl (hsleep hu)
    · -- what kept the sleeper safe is still there, or the word has become 2
      rcases h.asleep u hu with hw2 | ⟨x, hx⟩
      · refine .inl ?_
        rcases hw with hw | ⟨hw1, -⟩
        · exact hw.trans hw2
        · rw [hw1] at hw2
          cases hw2
      · by_cases hxt : x = t
        · subst hxt
          rcases hx with hx | hx
          · exact absurd hx hwake
          · rcases hretry hx with hr | hw2
            · exact .inr ⟨x, .inr (by rw [hat, if_pos rfl]; exact hr)⟩
            · exact .inl hw2
        · exact .inr ⟨x, by rw [hat, if_neg hxt]; exact hx⟩

omit [Fintype ι] in
/-- The mutex was free and is taken. -/
theorem takes_inv (h : Inv s) (hw : s.word = 0) (hw' : w = 1 ∧ s.at_ t = .lock ∨ w = 2) :
    Inv { s.goto t .unlock with word := w } := by
  have hat : ∀ u, ({ s.goto t .unlock with word := w } : mutex ι).at_ u = if u = t then .unlock else s.at_ u :=
    fun u => goto_at s t u .unlock
  have hfree := h.free hw
  refine ⟨?_, ?_, ?_, ?_, ?_⟩
  · intro u u' hu hu'
    rw [hat] at hu hu'
    have hout : ∀ {x}, (if x = t then point.unlock else s.at_ x).holds = true → x = t := by
      intro x hx
      by_contra hne
      rw [if_neg hne] at hx
      exact hfree x hx
    rw [hout hu, hout hu']
  · intro hw0
    rcases hw' with ⟨rfl, -⟩ | rfl <;> cases hw0
  · intro _
    refine ⟨?_, t, by rw [hat, if_pos rfl]; rfl⟩
    rcases hw' with ⟨rfl, -⟩ | rfl
    · exact .inl rfl
    · exact .inr rfl
  · intro u v hu
    rw [hat] at hu
    split_ifs at hu
    exact h.released u v hu
  · intro u hu
    rw [hat] at hu
    split_ifs at hu with hut
    rcases hw' with ⟨rfl, hlock⟩ | rfl
    · -- it was taken as 1 by a thread that was not in the loop
      rcases h.asleep u hu with hw2 | ⟨x, hx⟩
      · rw [hw] at hw2
        cases hw2
      · have hxt : x ≠ t := by
          rintro rfl
          rw [hlock] at hx
          rcases hx with hx | hx <;> cases hx
        exact .inr ⟨x, by rw [hat, if_neg hxt]; exact hx⟩
    · exact .inl rfl

omit [Fintype ι] in
/-- The holder goes on. -/
theorem goes_on_inv (h : Inv s) (hq : (s.at_ t).holds = true) (hp : p.holds = true)
    (hv : ∀ v, p = .release v → v = s.word) : Inv { s.goto t p with word := s.word } := by
  have hat : ∀ u, ({ s.goto t p with word := s.word } : mutex ι).at_ u = if u = t then p else s.at_ u :=
    fun u => goto_at s t u p
  have hne : s.word ≠ 0 := fun h0 => h.free h0 t hq
  have hother := goto_holds (hp.trans hq.symm)
  refine ⟨?_, ?_, ?_, ?_, ?_⟩
  · intro u u' hu hu'
    rw [hat, hother] at hu hu'
    exact h.one u u' hu hu'
  · exact fun h0 => absurd h0 hne
  · exact fun _ => ⟨(h.taken hne).1, t, by rw [hat, if_pos rfl]; exact hp⟩
  · intro u v hu
    rw [hat] at hu
    split_ifs at hu with hut
    · rw [hv v hu]
      exact (h.taken hne).1
    · exact h.released u v hu
  · intro u hu
    rw [hat] at hu
    split_ifs at hu with hut
    · rw [hu] at hp
      cases hp
    · rcases h.asleep u hu with hw2 | ⟨x, hx⟩
      · exact .inl hw2
      · have hxt : x ≠ t := by
          rintro rfl
          cases hpt : s.at_ x <;> simp_all [point.holds, point.retries]
        exact .inr ⟨x, by rw [hat, if_neg hxt]; exact hx⟩

omit [Fintype ι] in
/-- The holder frees the mutex. -/
theorem frees_inv (h : Inv s) (hq : (s.at_ t).holds = true)
    (hw : s.word = 1 ∧ p = .lock ∨ s.word = 2 ∧ p = .wake) :
    Inv { s.goto t p with word := 0 } := by
  have hat : ∀ u, ({ s.goto t p with word := 0 } : mutex ι).at_ u = if u = t then p else s.at_ u :=
    fun u => goto_at s t u p
  have hp : p.holds = false := by
    rcases hw with ⟨-, rfl⟩ | ⟨-, rfl⟩ <;> rfl
  have hnone : ∀ u, (if u = t then p else s.at_ u).holds = false := by
    intro u
    split_ifs with hu
    · exact hp
    · rw [Bool.eq_false_iff]
      exact fun hh => hu (h.one u t hh hq)
  refine ⟨?_, ?_, ?_, ?_, ?_⟩
  · intro u u' hu
    rw [hat, hnone] at hu
    cases hu
  · intro _ u
    rw [hat, hnone]
    exact Bool.false_ne_true
  · exact fun hne => absurd rfl hne
  · intro u v hu
    rw [hat] at hu
    split_ifs at hu with hut
    · rw [hu] at hp
      cases hp
    · exact h.released u v hu
  · intro u hu
    rw [hat] at hu
    rcases hw with ⟨hw1, rfl⟩ | ⟨-, rfl⟩
    · split_ifs at hu with hut
      rcases h.asleep u hu with hw2 | ⟨x, hx⟩
      · rw [hw1] at hw2
        cases hw2
      · have hxt : x ≠ t := by
          rintro rfl
          cases hpt : s.at_ x <;> simp_all [point.holds, point.retries]
        exact .inr ⟨x, by rw [hat, if_neg hxt]; exact hx⟩
    · exact .inr ⟨t, .inl (by rw [hat, if_pos rfl])⟩

omit [Fintype ι] in
/-- A step of a thread. -/
theorem step_inv (h : Inv s) (hrun : (s.at_ t).run s.word = some (w, p)) :
    Inv { s.goto t p with word := w } := by
  rcases run_cases h hrun with ⟨hq, hp, hw, hretry, hsleep, hwake, -⟩ | ⟨-, rfl, hw, hw'⟩ |
    ⟨hq, hp, rfl, hv⟩ | ⟨hq, rfl, hw⟩
  · exact outside_inv h hq hp hw hretry hsleep hwake
  · exact takes_inv h hw hw'
  · exact goes_on_inv h hq hp hv
  · exact frees_inv h hq hw

omit [Fintype ι] in
/-- A sleeper that wakes is awake in the loop. -/
theorem wakes_inv (h : Inv s) (hs : s.at_ t = .asleep) : Inv (s.goto t .retry) := by
  have hat : ∀ u, (s.goto t .retry).at_ u = if u = t then .retry else s.at_ u :=
    fun u => goto_at s t u .retry
  have hother := goto_holds (p := .retry) (show point.retry.holds = (s.at_ t).holds by rw [hs]; rfl)
  refine ⟨?_, ?_, ?_, ?_, ?_⟩
  · intro u u' hu hu'
    rw [hat, hother] at hu hu'
    exact h.one u u' hu hu'
  · intro h0 u
    rw [hat, hother]
    exact h.free h0 u
  · intro hne
    obtain ⟨hone, u, hu⟩ := h.taken hne
    exact ⟨hone, u, by rw [hat, hother]; exact hu⟩
  · intro u v hu
    rw [hat] at hu
    split_ifs at hu
    exact h.released u v hu
  · exact fun _ _ => .inr ⟨t, .inr (by rw [hat, if_pos rfl]; rfl)⟩

omit [Fintype ι] in
/-- An unlocker is done, with nobody asleep or somebody awake in the loop. -/
theorem woken_inv (h : Inv s) (ht : s.at_ t = .wake)
    (hsafe : ∀ u, s.at_ u = .asleep → ∃ x, (s.at_ x).retries) : Inv (s.goto t .lock) := by
  have hat : ∀ u, (s.goto t .lock).at_ u = if u = t then .lock else s.at_ u :=
    fun u => goto_at s t u .lock
  have hother := goto_holds (p := .lock) (show point.lock.holds = (s.at_ t).holds by rw [ht]; rfl)
  refine ⟨?_, ?_, ?_, ?_, ?_⟩
  · intro u u' hu hu'
    rw [hat, hother] at hu hu'
    exact h.one u u' hu hu'
  · intro h0 u
    rw [hat, hother]
    exact h.free h0 u
  · intro hne
    obtain ⟨hone, u, hu⟩ := h.taken hne
    exact ⟨hone, u, by rw [hat, hother]; exact hu⟩
  · intro u v hu
    rw [hat] at hu
    split_ifs at hu
    exact h.released u v hu
  · intro u hu
    rw [hat] at hu
    split_ifs at hu
    obtain ⟨x, hx⟩ := hsafe u hu
    have hxt : x ≠ t := by
      rintro rfl
      rw [ht] at hx
      cases hx
    exact .inr ⟨x, .inr (by rw [hat, if_neg hxt]; exact hx)⟩

/-- Any event. -/
theorem exec_inv {s' : mutex ι} {e : event ι} (h : Inv s) (hexec : e.exec s = some s') : Inv s' := by
  cases e with
  | step t =>
    obtain ⟨⟨w, p⟩, hrun, hs'⟩ := Option.bind_eq_some_iff.mp hexec
    obtain rfl := Option.some.inj hs'
    exact step_inv h hrun
  | wake t sleeper =>
    cases sleeper with
    | none =>
      simp only [event.exec] at hexec
      split_ifs at hexec with hok
      obtain rfl := Option.some.inj hexec
      exact woken_inv h hok.1 fun u hu => absurd hu (hok.2 u)
    | some u =>
      simp only [event.exec] at hexec
      split_ifs at hexec with hok
      obtain rfl := Option.some.inj hexec
      have hut : u ≠ t := by
        rintro rfl
        rw [hok.1] at hok
        cases hok.2
      have hswap : (s.goto t .lock).goto u .retry = (s.goto u .retry).goto t .lock := by
        simp only [mutex.goto, Function.update_comm hut]
      rw [hswap]
      refine woken_inv (wakes_inv h hok.2) ?_ ?_
      · rw [goto_at, if_neg hut.symm, hok.1]
      · exact fun _ _ => ⟨u, by rw [goto_at, if_pos rfl]; rfl⟩
  | spurious u =>
    simp only [event.exec] at hexec
    split_ifs at hexec with hok
    obtain rfl := Option.some.inj hexec
    exact wakes_inv h hok

end steps

/-- The mutex is exclusive and loses no wake-up, in every run of any number of
    threads: while a thread is asleep the mutex is taken with the word at 2, or an
    unlocker has freed it and is about to wake a sleeper, or a thread of the loop is
    awake and will try again. -/
theorem mutex_exclusive {s : mutex ι} (h : (mutex_runs ι).Reach (fun _ _ => True) s) :
    (∀ t u, (s.at_ t).holds → (s.at_ u).holds → t = u) ∧
    ((∃ t, s.at_ t = .asleep) → (s.word = 2 ∧ ∃ u, (s.at_ u).holds) ∨
      (∃ u, s.at_ u = .wake) ∨ ∃ u, (s.at_ u).retries) := by
  have hinv : Inv s := by
    refine h.invariant ?_ ?_
    · refine ⟨?_, ?_, ?_, ?_, ?_⟩ <;> simp [mutex_runs, point.holds]
    · exact fun s e s' hs _ hexec => exec_inv hs hexec
  refine ⟨hinv.one, ?_⟩
  rintro ⟨t, ht⟩
  rcases hinv.asleep t ht with hw | ⟨u, hu | hu⟩
  · obtain ⟨-, hholder⟩ := hinv.taken (by rw [hw]; decide)
    exact .inl ⟨hw, hholder⟩
  · exact .inr (.inl ⟨u, hu⟩)
  · exact .inr (.inr ⟨u, hu⟩)

/-- Two threads: the second falls asleep while the first holds the mutex. -/
theorem mutex_exclusive_two : ∃ s, (mutex_runs (Fin 2)).Reach (fun _ _ => True) s ∧
    s.at_ 1 = .asleep ∧ ((s.word = 2 ∧ ∃ u, (s.at_ u).holds) ∨
      (∃ u, s.at_ u = .wake) ∨ ∃ u, (s.at_ u).retries) := by
  obtain ⟨s, hs, hasleep⟩ : ∃ s, (mutex_runs (Fin 2)).Reach (fun _ _ => True) s ∧
      s.at_ 1 = .asleep :=
    ⟨_, .step (.step (.step (.step .init (l := .step 0) trivial rfl) (l := .step 1) trivial rfl)
      (l := .step 1) trivial rfl) (l := .step 1) trivial rfl, rfl⟩
  exact ⟨s, hs, hasleep, (mutex_exclusive hs).2 ⟨1, hasleep⟩⟩

end Umeq.Runtime
