import Umeq.Loop.Linking

/-! # Requests to the loop

    A helper that calls `cleanCaches` or clears `isLooping` relies on the loop to
    act on it before the next guest block. The loop does so when control comes
    back to it. A block whose exit has been patched does not come back, so a block
    that makes a request must not leave by such an exit: `RequestsReturn`.
-/

namespace Umeq.Loop

open Bytes Umeq.Cache

variable {γ : Type}

/-! ## What the loop owes -/

/-- What has been asked of the loop and not been done yet. -/
structure owed where
  check : Bool
  clean : Bool
  deriving DecidableEq, Repr

/-- A request is settled by a test of `isLooping`, and one to clean also by a lookup
    that resets the cache. -/
def owed.after (o : owed) : action γ → owed
  | .check => { o with check := false }
  | .cleaned => { o with clean := false }
  | .enter _ _ => o
  | .clean_request => ⟨true, true⟩
  | .stop_request => { o with check := true }

section heard

variable {o : owed}

end heard

/-! ## Rounds -/

section rounds

variable {T : target γ} {s s' : loop_state γ}

end rounds

/-! ## Runs -/

section runs

variable {T : target γ} {entry memory size : Nat} {g : γ} {contents : Mem} {s : loop_state γ}

end runs

/-! ## The condition on the blocks -/

/-- A block has called `cleanCaches` or has cleared `isLooping`. -/
def Asks (T : target γ) (o : outcome γ) : Prop := o.clean = true ∨ T.isLooping o.guest = false

/-- The blocks of the cache that the guest comes to next, and its state there, when
    each is looked up by its pc. No exit is followed. -/
inductive Comes (T : target γ) (s : loop_state γ) : block γ → γ → Prop where
  | lookup {b : block γ} : marked s = false → b ∈ s.live → b.pc = s.currentPc → Comes T s b s.guest
  | next {b b' : block γ} {g : γ} : Comes T s b g → ¬ Asks T (b.tr.run g) → b' ∈ s.live →
      b'.pc = exit_value b g → Comes T s b' (b.tr.run g).guest

section blocks

variable {T : target γ} {s : loop_state γ} {b : block γ} {g : γ}

theorem Comes.live (h : Comes T s b g) : b ∈ s.live := by
  cases h with
  | lookup _ hb _ => exact hb
  | next _ _ hb _ => exact hb

end blocks

section runs

variable {T : target γ} {entry memory size : Nat} {g : γ} {contents : Mem} {s : loop_state γ}

end runs

end Umeq.Loop
