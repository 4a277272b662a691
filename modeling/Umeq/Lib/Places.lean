import Mathlib.Data.List.Basic

/-! # Places of a state

    A state has places that values are put into. What is put into a place replaces what was
    there, and two places are independent of each other. A sequence of puts that is
    interrupted can be started again: the second time overwrites all that the first has
    done.
-/

namespace Places

variable {C L V : Type}

/-- The laws of a put. -/
structure Lawful (put : L → V → C → C) : Prop where
  same : ∀ l v v' c, put l v (put l v' c) = put l v c
  apart : ∀ {l l'}, l ≠ l' → ∀ v v' c, put l v (put l' v' c) = put l' v' (put l v c)

/-- One put after the other. -/
def puts (put : L → V → C → C) (ws : List (L × V)) (c : C) : C :=
  ws.foldl (fun c w => put w.1 w.2 c) c

section lemmas

variable {put : L → V → C → C}

@[simp] theorem puts_nil (c : C) : puts put [] c = c := rfl

@[simp] theorem puts_cons (w : L × V) (ws : List (L × V)) (c : C) :
    puts put (w :: ws) c = puts put ws (put w.1 w.2 c) := rfl

theorem puts_append (us ws : List (L × V)) (c : C) :
    puts put (us ++ ws) c = puts put ws (puts put us c) := List.foldl_append

/-- What is not looked at stays. -/
theorem puts_frame {β : Type} (get : C → β) {ws : List (L × V)}
    (h : ∀ w ∈ ws, ∀ c, get (put w.1 w.2 c) = get c) (c : C) : get (puts put ws c) = get c := by
  induction ws generalizing c with
  | nil => rfl
  | cons w ws ih =>
    rw [puts_cons, ih fun w' hw' => h w' (List.mem_cons_of_mem _ hw')]
    exact h w List.mem_cons_self c

/-- A put is lost when its place is written again. -/
theorem puts_put (h : Lawful put) {ws : List (L × V)} {w : L × V} (hw : w ∈ ws) (c : C) :
    puts put ws (put w.1 w.2 c) = puts put ws c := by
  induction ws generalizing c with
  | nil => cases hw
  | cons u ws ih =>
    rw [puts_cons, puts_cons]
    by_cases hsame : u.1 = w.1
    · rw [hsame, h.same]
    · rw [h.apart hsame]
      rcases List.mem_cons.mp hw with rfl | hmem
      · exact absurd rfl hsame
      · exact ih hmem _

/-- A sequence that is started again after a part of it. -/
theorem puts_again (h : Lawful put) {us ws : List (L × V)} (hsub : ∀ w ∈ us, w ∈ ws) (c : C) :
    puts put ws (puts put us c) = puts put ws c := by
  induction us generalizing c with
  | nil => rfl
  | cons u us ih =>
    rw [puts_cons, ih fun w hw => hsub w (List.mem_cons_of_mem _ hw)]
    exact puts_put h (hsub u List.mem_cons_self) c

end lemmas

end Places
