import Umeq.Signal.Location

/-! # Leaving a handler by a jump

    A handler that moves its stack pointer out of the signal stack is left with its
    registers: they are copied to the interrupted context, which goes on with them. The
    registers of the floating point unit and the vector registers are not copied, nor are
    the flags on arm64.

    `jump_carries_iff` says when the interrupted context has the state of the handler all
    the same. On arm64 a handler starts with vector registers that are zero, so this is not
    what happens when it leaves them alone.
-/

namespace Umeq.Signal

/-! ## Floating point and vector registers -/

structure float_status where
  float_detect_tininess : Int
  float_rounding_mode : Int
  float_exception_flags : Int
  floatx80_rounding_precision : Int
  flush_to_zero : Bool
  flush_inputs_to_zero : Bool
  default_nan_mode : Bool
  deriving DecidableEq

structure arm_fp where
  /-- `e.d`. -/
  d : Nat → Nat
  fpscr : Nat
  fp_status : float_status
  fp_status_simd : float_status

structure arm64_fp where
  v : Nat → Nat
  fp_status : float_status
  fpcr_others : Nat
  qc : Nat

def guest.fp_registers : guest → Type
  | .arm => arm_fp
  | .arm64 => arm64_fp

/-- What `init` gives to the context of a handler. -/
def init_fp : (g : guest) → g.fp_registers → g.fp_registers
  | .arm, fp => fp
  | .arm64, (fp : arm64_fp) => ({ fp with v := fun _ => 0 } : arm64_fp)

/-! ## Runs of a handler -/

/-- A handler with the registers of the floating point unit of its context and of the
    interrupted one. -/
structure jump_state (g : guest) where
  handler : handler_state
  fp : g.fp_registers
  prev_fp : g.fp_registers

/-- The turns of a handler. A block may change the registers of the handler's context; those
    of the interrupted one are not touched when the handler is left. -/
def jump_runs (b : build) (m prev : target_context) (ucp : ucontext) (i : signal_info)
    (prev_fp : b.guest.fp_registers) :
    Runs.System (jump_state b.guest) (block_effect × b.guest.fp_registers) where
  init := ⟨(handler_runs b m prev ucp i).init, init_fp b.guest prev_fp, prev_fp⟩
  exec := fun s e =>
    if s.handler.phase = .looping then
      let handler := turn b s.handler e.1
      some ⟨handler, if handler.phase = .looping then e.2 else s.fp, s.prev_fp⟩
    else none

/-- The handler has left its stack and its loop. -/
def Jumped {g : guest} (s : jump_state g) : Prop :=
  s.handler.phase = .left ∧ s.handler.context.exitStatus ≠ 0

/-- The interrupted context goes on with the state of the handler. -/
structure Carried (b : build) (saved : Nat) (s : jump_state b.guest) : Prop where
  resumes : resumed b saved s.handler.ucp = some s.handler.context.regs.pc
  regs : s.handler.prev.regs = s.handler.context.regs
  fp : s.prev_fp = s.fp

section jumps

variable {b : build} {m prev : target_context} {ucp : ucontext} {i : signal_info}
  {prev_fp : b.guest.fp_registers}

/-- What the turns of a handler leave of the interrupted context, until a jump copies the
    registers to it. -/
structure Jumping (b : build) (prev : target_context) (ucp : ucontext) (prev_fp : b.guest.fp_registers)
    (s : jump_state b.guest) : Prop where
  flags : s.handler.phase = .looping → s.handler.prev.regs.flags = prev.regs.flags
  sp : s.handler.ucp.sp = ucp.sp
  fp : s.prev_fp = prev_fp
  copied : Jumped s → s.handler.ucp.alternate_exit = some s.handler.context.regs.pc ∧
    s.handler.prev.regs = { s.handler.context.regs with
      flags := if b.guest = .arm64 then prev.regs.flags else s.handler.context.regs.flags }

theorem copied_registers_eq (c prev : target_context) :
    copied_registers b c prev = { c.regs with
      flags := if b.guest = .arm64 then prev.regs.flags else c.regs.flags } := by
  unfold copied_registers
  cases b.guest <;> rfl

/-- What `getExitStatus` does for a handler that has left its stack. -/
theorem getExitStatus_jumped {s : handler_state} (hstatus : s.context.exitStatus ≠ 0)
    (hleft : (getExitStatus b s).phase = .left) :
    (getExitStatus b s).ucp.alternate_exit = some s.context.regs.pc ∧
      (getExitStatus b s).prev.regs = copied_registers b s.context s.prev := by
  unfold getExitStatus at hleft ⊢
  dsimp only at hleft ⊢
  rw [if_pos hstatus] at hleft ⊢
  split_ifs at hleft ⊢ with hlocated
  exact ⟨rfl, rfl⟩

theorem getExitStatus_context (s : handler_state) :
    (getExitStatus b s).context = s.context ∧ (getExitStatus b s).ucp.sp = s.ucp.sp ∧
      (getExitStatus b s).phase ≠ .looping := by
  unfold getExitStatus
  dsimp only
  split_ifs <;> exact ⟨rfl, rfl, by simp⟩

theorem jumping_step {s s' : jump_state b.guest} {e : block_effect × b.guest.fp_registers}
    (hs : Jumping b prev ucp prev_fp s) (hexec : (jump_runs b m prev ucp i prev_fp).exec s e = some s') :
    Jumping b prev ucp prev_fp s' := by
  have hphase : s.handler.phase = .looping := by
    by_contra hnot
    rw [show (jump_runs b m prev ucp i prev_fp).exec s e = none from if_neg hnot] at hexec
    cases hexec
  obtain rfl := Option.some.inj ((if_pos hphase).symm.trans hexec)
  have hflags := hs.flags hphase
  unfold turn
  dsimp only
  by_cases hloops : (isLooping s.handler.context s.handler.prev).isLooping
  · -- a block
    rw [if_pos hloops]
    refine ⟨fun _ => hflags, hs.sp, hs.fp, ?_⟩
    rintro ⟨hleft, -⟩
    have hlooping : loop_phase.looping = .left := hphase.symm.trans hleft
    cases hlooping
  · rw [if_neg hloops]
    generalize hc : ({ s.handler with context := isLooping s.handler.context s.handler.prev } : handler_state) = h
    have hprev : h.prev = s.handler.prev := by rw [← hc]
    have hucp : h.ucp = s.handler.ucp := by rw [← hc]
    obtain ⟨hcontext, hsp, hnot⟩ := getExitStatus_context (b := b) h
    refine ⟨fun h => absurd h hnot, by rw [hsp, hucp]; exact hs.sp, hs.fp, ?_⟩
    rintro ⟨hleft, hstatus⟩
    dsimp only at hleft hstatus ⊢
    rw [hcontext] at hstatus ⊢
    obtain ⟨hexit, hregs⟩ := getExitStatus_jumped hstatus hleft
    refine ⟨hexit, ?_⟩
    rw [hregs, copied_registers_eq, hprev, hflags]

theorem jumping_of_reach {s : jump_state b.guest}
    (h : (jump_runs b m prev ucp i prev_fp).Reach (fun _ _ => True) s) :
    Jumping b prev ucp prev_fp s := by
  refine h.invariant ?_ ?_
  · refine ⟨fun _ => rfl, rfl, rfl, ?_⟩
    rintro ⟨hleft, -⟩
    cases hleft
  · intro s e s' hs _ hexec
    exact jumping_step hs hexec

end jumps

/-- A jump carries the state of the handler exactly when what is not copied is the same in
    both contexts and the interrupted `execute` is found. -/
theorem jump_carries_iff (b : build) (m prev : target_context) (ucp : ucontext) (i : signal_info)
    (prev_fp : b.guest.fp_registers) (saved : Nat) (s : jump_state b.guest)
    (h : (jump_runs b m prev ucp i prev_fp).Reach (fun _ _ => True) s) (hjump : Jumped s) :
    Carried b saved s ↔
      (b.guest = .arm64 → s.handler.context.regs.flags = prev.regs.flags) ∧ s.fp = prev_fp ∧
        same_window b saved ucp := by
  have hs := jumping_of_reach h
  obtain ⟨hexit, hregs⟩ := hs.copied hjump
  have hresumed : resumed b saved s.handler.ucp = some s.handler.context.regs.pc ↔
      same_window b saved ucp := by
    unfold same_window
    rw [← restored_sp_eq_iff, resumed, hexit, hs.sp]
    simp
  have hcopied : s.handler.prev.regs = s.handler.context.regs ↔
      (b.guest = .arm64 → s.handler.context.regs.flags = prev.regs.flags) := by
    rw [hregs]
    by_cases harm64 : b.guest = .arm64
    · rw [if_pos harm64]
      constructor
      · intro heq _
        exact (congrArg guest_registers.flags heq).symm
      · intro heq
        rw [← heq harm64]
    · rw [if_neg harm64]
      exact iff_of_true rfl fun h => absurd h harm64
  constructor
  · intro hcarried
    exact ⟨hcopied.mp hcarried.regs, hcarried.fp.symm.trans hs.fp, hresumed.mp hcarried.resumes⟩
  · rintro ⟨hflags, hfp, hwindow⟩
    exact ⟨hresumed.mpr hwindow, hcopied.mpr hflags, hs.fp.trans hfp.symm⟩

/-! ### A handler that jumps -/

/-- A block after which the stack pointer is above that of the interrupted context. -/
def jumps_out : block_effect :=
  ⟨⟨fun _ => 0, 0x20000, 0xa000, 0⟩, 0, ⟨fun _ => 0, 0x10000, 0x8000, 0⟩, 0, 0, false⟩

def quiet_fp : float_status := ⟨0, 0, 0, 0, false, false, false⟩

/-- Guest code that is in a helper. -/
def helper_context : target_context := { running_context with helper_pc := 0x8000 }

/-- On arm, a jump of a handler that leaves the registers of the floating point unit alone. -/
theorem arm_jump_carries : ∃ s,
    (jump_runs arm_build running_context helper_context in_jitted_code usr1_info
      (⟨fun _ => 1, 0, quiet_fp, quiet_fp⟩ : arm_fp)).Reach (fun _ _ => True) s ∧ Jumped s ∧
      Carried arm_build 0x7ffe0008 s := by
  have hreach : (jump_runs arm_build running_context helper_context in_jitted_code usr1_info
      (⟨fun _ => 1, 0, quiet_fp, quiet_fp⟩ : arm_fp)).Reach (fun _ _ => True) _ :=
    .step (.step .init (l := (jumps_out, (⟨fun _ => 1, 0, quiet_fp, quiet_fp⟩ : arm_fp))) trivial rfl)
      (l := (jumps_out, (⟨fun _ => 1, 0, quiet_fp, quiet_fp⟩ : arm_fp))) trivial rfl
  refine ⟨_, hreach, ⟨rfl, Nat.one_ne_zero⟩, ?_⟩
  refine (jump_carries_iff arm_build _ _ _ _ _ 0x7ffe0008 _ hreach ⟨rfl, Nat.one_ne_zero⟩).mpr
    ⟨?_, rfl, ?_⟩
  · intro h
    cases h
  · intro _
    decide

/-- On arm64, the interrupted context keeps its vector registers, and those of the handler
    are lost. -/
theorem arm64_jump_loses_vectors :
    ¬ ∀ (b : build) (m prev : target_context) (ucp : ucontext) (i : signal_info)
      (prev_fp : b.guest.fp_registers) (saved : Nat) (s : jump_state b.guest),
      (jump_runs b m prev ucp i prev_fp).Reach (fun _ _ => True) s → Jumped s →
        Carried b saved s := by
  intro h
  have hreach : (jump_runs arm64_build running_context running_context in_jitted_code usr1_info
      (⟨fun _ => 1, quiet_fp, 0, 0⟩ : arm64_fp)).Reach (fun _ _ => True) _ :=
    .step (.step .init (l := (jumps_out, (⟨fun _ => 0, quiet_fp, 0, 0⟩ : arm64_fp))) trivial rfl)
      (l := (jumps_out, (⟨fun _ => 0, quiet_fp, 0, 0⟩ : arm64_fp))) trivial rfl
  have hfp := (h _ _ _ _ _ _ 0x7ffe0008 _ hreach ⟨rfl, Nat.one_ne_zero⟩).fp
  have hv : (1 : Nat) = 0 := congrFun (congrArg arm64_fp.v hfp) 0
  exact absurd hv (by decide)

end Umeq.Signal
