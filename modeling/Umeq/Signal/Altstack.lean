import Umeq.Signal.Location

/-! # The alternate signal stack

    A thread is a stack of contexts: the one that it has started with, and one for each
    handler that is active. `sigaltstack` is kept in the context that makes the call. A new
    context gets a copy of what the interrupted one has, and nothing is copied back when
    the handler is left.

    So the setting is one of the thread as long as each handler is left with the stack that
    it was entered with (`altstack_of_thread`).
-/

namespace Umeq.Signal

/-! ## The call -/

def EPERM : Int := 1

def ENOMEM : Int := 12

def SS_ONSTACK : Nat := 1

def SS_DISABLE : Nat := 2

def MINSIGSTKSZ : Nat := 2048

structure stack_t where
  ss_sp : Nat
  ss_flags : Nat
  ss_size : Nat
  deriving DecidableEq, Repr

def sas_ss_flags (c : target_context) (sp : Nat) : Nat :=
  if c.sas_ss_size = 0 then SS_DISABLE else if on_sig_stack c sp then SS_ONSTACK else 0

/-- `arm64_sigaltstack` and `arm_sigaltstack`: the context, the result and what is written to
    `oss` when there is one. -/
def sigaltstack (c : target_context) (ss : Option stack_t) : target_context × Int × Option stack_t :=
  let oss : stack_t := ⟨c.sas_ss_sp, sas_ss_flags c c.regs.sp, c.sas_ss_size⟩
  match ss with
  | none => (c, 0, some oss)
  | some s =>
    if on_sig_stack c c.regs.sp then (c, -EPERM, none)
    else if s.ss_flags ≠ SS_DISABLE ∧ s.ss_flags ≠ SS_ONSTACK ∧ s.ss_flags ≠ 0 then (c, -EINVAL, none)
    else if s.ss_flags = SS_DISABLE then
      ({ c with
          sas_ss_sp := 0
          sas_ss_size := 0 }, 0, some oss)
    else if s.ss_size < MINSIGSTKSZ then (c, -ENOMEM, none)
    else
      ({ c with
          sas_ss_sp := s.ss_sp
          sas_ss_size := s.ss_size }, 0, some oss)

/-! ## Threads -/

/-- An active handler: its context, its frame and the host context of its signal. -/
structure active_handler where
  context : target_context
  frame : guest_registers
  ucp : ucontext

/-- The handlers, the last one first, and the context that the thread has started with.
    `given` is the place and the size that the last successful call of `sigaltstack` gave. -/
structure thread where
  handlers : List active_handler
  main : target_context
  given : Nat × Nat

/-- The context that is left when the handlers are these. -/
def innermost (handlers : List active_handler) (main : target_context) : target_context :=
  match handlers with
  | [] => main
  | h :: _ => h.context

/-- The context that runs. -/
def thread.current (t : thread) : target_context := innermost t.handlers t.main

def thread.set_current (t : thread) (c : target_context) : thread :=
  match t.handlers with
  | [] => { t with main := c }
  | h :: rest => { t with handlers := { h with context := c } :: rest }

inductive thread_event where
  /-- Guest code runs. -/
  | code (regs : guest_registers) (helper_pc : Nat)
  /-- The guest writes to the frame of a handler. -/
  | frame (n : Nat) (regs : guest_registers)
  | sigaltstack (ss : Option stack_t)
  /-- A signal is taken. Its context is made in the memory `m`. -/
  | signal (m : target_context) (ucp : ucontext) (i : signal_info)
  | sigreturn
  /-- The loop of the context that runs asks whether to go on. -/
  | turn

/-- The context of a handler and those around it when its loop has asked to go on. -/
def left (b : build) (h : active_handler) (prev : target_context) : handler_state :=
  getExitStatus b ⟨isLooping h.context prev, prev, h.frame, h.ucp, .looping, none⟩

/-- The setting that a call of `sigaltstack` gives when it succeeds. -/
def asked_stack (s : stack_t) : Nat × Nat :=
  if s.ss_flags = SS_DISABLE then (0, 0) else (s.ss_sp, s.ss_size)

def thread_step (b : build) (t : thread) : thread_event → Option thread
  | .code regs helper_pc =>
    some (t.set_current { t.current with
      regs := regs
      helper_pc := helper_pc })
  | .frame n regs =>
    some { t with handlers := t.handlers.modify n fun h => { h with frame := regs } }
  | .sigaltstack ss =>
    let r := sigaltstack t.current ss
    let given := match ss with
      | some s => if r.2.1 = 0 then asked_stack s else t.given
      | none => t.given
    some { t.set_current r.1 with given := given }
  | .signal m ucp i =>
    let r := init b m t.current ucp i
    let t := t.set_current r.2.1
    some { t with handlers := ⟨r.1, r.2.2, ucp⟩ :: t.handlers }
  | .sigreturn =>
    match t.handlers with
    -- the thread ends
    | [] => none
    | h :: _ => some (t.set_current { h.context with
        isLooping := false
        exitStatus := 0 })
  | .turn =>
    match t.handlers with
    | [] => some t
    | h :: rest =>
      let prev := innermost rest t.main
      if (isLooping h.context prev).isLooping then some (t.set_current (isLooping h.context prev))
      else
        let s := left b h prev
        if s.phase = .aborted then none
        else some ({ t with handlers := rest }.set_current s.prev)

/-- A new thread, which has no other stack. -/
def new_context (regs : guest_registers) (helper_pc : Nat) : target_context :=
  ⟨regs, helper_pc, true, true, 0, false, SIGNAL_LOCATION_UNKNOWN, 0, 0, false⟩

def thread_runs (b : build) (regs : guest_registers) (helper_pc : Nat) :
    Runs.System thread thread_event where
  init := ⟨[], new_context regs helper_pc, (0, 0)⟩
  exec := thread_step b

/-! ## A setting of the thread -/

/-- The stack pointer that a signal starts from, for the setting `given`. -/
def stack_for (b : build) (given : Nat × Nat) (sp : Nat) (i : signal_info) : Nat :=
  if i.sa_flags &&& SA_ONSTACK ≠ 0 ∧ given.2 ≠ 0 ∧ ¬ (sp > given.1 ∧ sp - given.1 ≤ given.2) then
    (given.1 + given.2) % b.guest.modulus
  else sp

/-- What `sigaltstack` reports and what a signal uses is the setting that was given last. -/
structure OfThread (b : build) (t : thread) : Prop where
  reports : ∃ ss_flags, (sigaltstack t.current none).2.2 = some ⟨t.given.1, ss_flags, t.given.2⟩
  uses : ∀ i, sigsp b t.current i = stack_for b t.given t.current.regs.sp i

def target_context.setting (c : target_context) : Nat × Nat := (c.sas_ss_sp, c.sas_ss_size)

/-- A handler is left only with the setting that the interrupted context has. -/
def LeavesSetting (t : thread) (e : thread_event) : Prop :=
  e = .turn → ∀ h rest, t.handlers = h :: rest →
    (isLooping h.context (innermost rest t.main)).isLooping = false →
    h.context.setting = (innermost rest t.main).setting

/-- The context that runs has the setting that was given last. -/
def HasGiven (t : thread) : Prop := t.current.setting = t.given

section setting

variable {b : build} {t t' : thread} {e : thread_event}

theorem sigsp_eq (b : build) (c : target_context) (i : signal_info) :
    sigsp b c i = stack_for b c.setting c.regs.sp i := by
  unfold sigsp stack_for
  refine if_congr (and_congr_right fun _ => ?_) rfl rfl
  simp only [sas_ss_free, on_sig_stack, target_context.setting, Bool.and_eq_true, decide_eq_true_eq,
    Bool.not_eq_true', ne_eq, Bool.and_eq_false_iff, decide_eq_false_iff_not]
  omega

theorem ofThread_iff : OfThread b t ↔ HasGiven t := by
  constructor
  · rintro ⟨⟨flags, hreports⟩, -⟩
    simp only [sigaltstack, Option.some.injEq, stack_t.mk.injEq] at hreports
    exact Prod.ext hreports.1 hreports.2.2
  · intro h
    refine ⟨⟨sas_ss_flags t.current t.current.regs.sp, ?_⟩, ?_⟩
    · rw [← h]
      rfl
    · intro i
      rw [sigsp_eq, h]

theorem current_set_current (t : thread) (c : target_context) : (t.set_current c).current = c := by
  unfold thread.set_current thread.current
  cases t.handlers <;> rfl

theorem given_set_current (t : thread) (c : target_context) : (t.set_current c).given = t.given := by
  unfold thread.set_current
  cases t.handlers <;> rfl

/-- A call that succeeds leaves what it has asked for, and one that fails what was there. -/
theorem setting_sigaltstack (c : target_context) (s : stack_t) :
    (sigaltstack c (some s)).1.setting =
      if (sigaltstack c (some s)).2.1 = 0 then asked_stack s else c.setting := by
  have hperm : (-EPERM : Int) ≠ 0 := by decide
  have hinval : (-EINVAL : Int) ≠ 0 := by decide
  have hnomem : (-ENOMEM : Int) ≠ 0 := by decide
  simp only [sigaltstack, asked_stack]
  by_cases hon : on_sig_stack c c.regs.sp
  · simp only [if_pos hon, if_neg hperm]
  by_cases hflags : s.ss_flags ≠ SS_DISABLE ∧ s.ss_flags ≠ SS_ONSTACK ∧ s.ss_flags ≠ 0
  · simp only [if_neg hon, if_pos hflags, if_neg hinval]
  by_cases hdisable : s.ss_flags = SS_DISABLE
  · simp only [if_neg hon, if_neg hflags, if_pos hdisable, if_true]
    rfl
  by_cases hsize : s.ss_size < MINSIGSTKSZ
  · simp only [if_neg hon, if_neg hflags, if_neg hdisable, if_pos hsize, if_neg hnomem]
  · simp only [if_neg hon, if_neg hflags, if_neg hdisable, if_neg hsize, if_true]
    rfl

theorem setting_isLooping (c prev : target_context) : (isLooping c prev).setting = c.setting := by
  unfold isLooping
  split_ifs <;> rfl

theorem setting_getExitStatus (s : handler_state) : (getExitStatus b s).prev.setting = s.prev.setting := by
  unfold getExitStatus
  dsimp only
  split_ifs <;> rfl

/-- A write to a frame changes no context. -/
theorem innermost_frame (handlers : List active_handler) (main : target_context) (n : Nat)
    (regs : guest_registers) :
    innermost (handlers.modify n fun h => { h with frame := regs }) main = innermost handlers main := by
  cases handlers with
  | nil => simp [innermost]
  | cons h rest =>
    cases n with
    | zero => simp [innermost]
    | succ n => simp [innermost]

/-- Which steps keep a setting of the thread. -/
theorem setting_step (ht : HasGiven t) (hexec : thread_step b t e = some t') :
    HasGiven t' ↔ LeavesSetting t e := by
  unfold HasGiven at ht ⊢
  have hother : e ≠ .turn → LeavesSetting t e := fun he h => absurd h he
  cases e with
  | code regs helper_pc =>
    obtain rfl := Option.some.inj hexec
    refine iff_of_true ?_ (hother (by simp))
    rw [current_set_current, given_set_current]
    exact ht
  | frame n regs =>
    obtain rfl := Option.some.inj hexec
    refine iff_of_true ?_ (hother (by simp))
    exact (congrArg target_context.setting (innermost_frame t.handlers t.main n regs)).trans ht
  | sigaltstack ss =>
    obtain rfl := Option.some.inj hexec
    refine iff_of_true ?_ (hother (by simp))
    have hcurrent := current_set_current t (sigaltstack t.current ss).1
    refine (congrArg target_context.setting hcurrent).trans ?_
    cases ss with
    | none => exact ht
    | some s =>
      rw [setting_sigaltstack, ht]
  | signal m ucp i =>
    -- the new context gets a copy
    obtain rfl := Option.some.inj hexec
    refine iff_of_true ?_ (hother (by simp))
    exact ht.trans (given_set_current t _).symm
  | sigreturn =>
    simp only [thread_step] at hexec
    split at hexec
    · cases hexec
    · rename_i h rest hhandlers
      obtain rfl := Option.some.inj hexec
      refine iff_of_true ?_ (hother (by simp))
      rw [current_set_current, given_set_current, ← ht, thread.current, hhandlers]
      rfl
  | turn =>
    simp only [thread_step] at hexec
    split at hexec
    · rename_i hhandlers
      obtain rfl := Option.some.inj hexec
      refine iff_of_true ht ?_
      intro _ h rest hcons
      rw [hhandlers] at hcons
      cases hcons
    · rename_i h rest hhandlers
      have hcurrent : t.current = h.context := by rw [thread.current, hhandlers]; rfl
      split_ifs at hexec with hloops haborted
      · -- the handler goes on
        obtain rfl := Option.some.inj hexec
        refine iff_of_true ?_ ?_
        · rw [current_set_current, given_set_current, setting_isLooping, ← hcurrent]
          exact ht
        · intro _ h' rest' hcons hleft
          rw [hhandlers] at hcons
          cases hcons
          rw [hloops] at hleft
          cases hleft
      · -- the handler is left: the interrupted context has kept its own setting
        obtain rfl := Option.some.inj hexec
        rw [current_set_current, given_set_current, left, setting_getExitStatus]
        show (innermost rest t.main).setting = t.given ↔ _
        rw [← ht, hcurrent]
        constructor
        · intro hsame _ h' rest' hcons _
          rw [hhandlers] at hcons
          cases hcons
          exact hsame.symm
        · intro hkept
          exact (hkept rfl h rest hhandlers (by simpa using hloops)).symm

end setting

/-- The alternate stack is a setting of the thread in all the runs in which each handler is
    left with the setting of the interrupted context, and the first handler that is not
    breaks it. -/
theorem altstack_of_thread (b : build) (regs : guest_registers) (helper_pc : Nat) (t : thread)
    (h : (thread_runs b regs helper_pc).Reach LeavesSetting t) :
    OfThread b t ∧ ∀ e t', thread_step b t e = some t' → (OfThread b t' ↔ LeavesSetting t e) := by
  have ht : HasGiven t := by
    refine h.invariant rfl ?_
    intro s e s' hs hok hexec
    exact (setting_step hs hexec).mpr hok
  refine ⟨ofThread_iff.mpr ht, ?_⟩
  intro e t' hexec
  rw [ofThread_iff]
  exact setting_step ht hexec

def stack_of_handler : stack_t := ⟨0x20000, 0, 8192⟩

/-- A thread sets a stack and takes a signal on it. -/
theorem altstack_of_main_handler : ∃ t,
    (thread_runs arm64_build ⟨fun _ => 0, 0x10000, 0x8000, 0⟩ 0).Reach LeavesSetting t ∧
      t.given = (0x20000, 8192) ∧ t.handlers.length = 1 ∧ OfThread arm64_build t := by
  refine ⟨_, .step (.step .init (l := .sigaltstack (some stack_of_handler)) (by simp [LeavesSetting]) rfl)
    (l := .signal running_context in_jitted_code ⟨10, 0x9000, SA_ONSTACK, false⟩)
    (by simp [LeavesSetting]) rfl, rfl, rfl, ?_⟩
  exact (altstack_of_thread arm64_build _ 0 _ (.step (.step .init
    (l := .sigaltstack (some stack_of_handler)) (by simp [LeavesSetting]) rfl)
    (l := .signal running_context in_jitted_code ⟨10, 0x9000, SA_ONSTACK, false⟩)
    (by simp [LeavesSetting]) rfl)).1

/-- A handler sets a stack and returns: the thread has no stack again. -/
theorem altstack_of_handler_lost :
    ¬ ∀ (b : build) (regs : guest_registers) (helper_pc : Nat) (t : thread),
      (thread_runs b regs helper_pc).Reach (fun _ _ => True) t → OfThread b t := by
  intro h
  have hreach : (thread_runs arm64_build ⟨fun _ => 0, 0x10000, 0x8000, 0⟩ 0).Reach (fun _ _ => True) _ :=
    .step (.step (.step (.step .init
      (l := .signal running_context in_jitted_code usr1_info) trivial rfl)
      (l := .sigaltstack (some stack_of_handler)) trivial rfl)
      (l := .sigreturn) trivial rfl)
      (l := .turn) trivial rfl
  have hset : ((0, 0) : Nat × Nat) = (0x20000, 8192) := ofThread_iff.mp (h _ _ _ _ hreach)
  exact absurd hset (by decide)

end Umeq.Signal
