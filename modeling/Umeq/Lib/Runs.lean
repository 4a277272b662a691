import Mathlib.Tactic.Common

/-! # Runs of a deterministic system with inputs

    A system takes one input at a time and may stop (abort) on it. What comes
    from outside, such as the answers of a host kernel, is part of the input.

    * `Reach ok`: the states met by the runs all of whose steps satisfy `ok`.
    * `Reach.invariant`: what holds at the start and is kept by every such step
      holds in all of them.
    * `run`: the inputs of a list; `reach_run` says where it leads, `run_append` cuts it in two.
-/

namespace Runs

variable {σ ℓ : Type}

/-- A start state and what one input does; `none` stops the run. -/
structure System (σ ℓ : Type) where
  init : σ
  exec : σ → ℓ → Option σ

/-- The states reached from `init` by steps that satisfy `ok`. -/
inductive System.Reach (S : System σ ℓ) (ok : σ → ℓ → Prop) : σ → Prop where
  | init : S.Reach ok S.init
  | step {s s' : σ} {l : ℓ} : S.Reach ok s → ok s l → S.exec s l = some s' → S.Reach ok s'

variable {S : System σ ℓ} {ok ok' : σ → ℓ → Prop}

/-- The invariant rule. -/
theorem System.Reach.invariant {Inv : σ → Prop} {s : σ} (h : S.Reach ok s) (hinit : Inv S.init)
    (hstep : ∀ s l s', Inv s → ok s l → S.exec s l = some s' → Inv s') : Inv s := by
  induction h with
  | init => exact hinit
  | step _ hok hexec ih => exact hstep _ _ _ ih hok hexec

/-- Weaker conditions on the steps reach more states. -/
theorem System.Reach.mono {s : σ} (h : S.Reach ok s) (hok : ∀ s l, ok s l → ok' s l) :
    S.Reach ok' s := by
  induction h with
  | init => exact .init
  | step _ hl hexec ih => exact .step ih (hok _ _ hl) hexec

/-- A list of inputs, one after the other. -/
def System.run (S : System σ ℓ) : σ → List ℓ → Option σ
  | s, [] => some s
  | s, l :: ls => (S.exec s l).bind fun s' => S.run s' ls

theorem System.run_append (s : σ) (ls ls' : List ℓ) :
    S.run s (ls ++ ls') = (S.run s ls).bind fun s' => S.run s' ls' := by
  induction ls generalizing s with
  | nil => rfl
  | cons l ls ih =>
    simp only [List.cons_append, System.run, Option.bind_assoc]
    congr 1
    funext s'
    exact ih s'

theorem System.reach_run {s s' : σ} {ls : List ℓ} (h : S.Reach (fun _ _ => True) s)
    (hrun : S.run s ls = some s') : S.Reach (fun _ _ => True) s' := by
  induction ls generalizing s with
  | nil =>
    obtain rfl := Option.some.inj hrun
    exact h
  | cons l ls ih =>
    obtain ⟨s₁, hexec, hrun⟩ := Option.bind_eq_some_iff.mp hrun
    exact ih (.step h trivial hexec) hrun

end Runs
