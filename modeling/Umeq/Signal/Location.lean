import Umeq.Signal.Sigaction

/-! # Leaving a signal handler

    A signal is handled by a nested main loop with a context of its own. Where it has
    interrupted the guest is found by `restore_precise_pc` and kept in
    `in_signal_location`. When the handler has asked for another pc, by its frame or by
    leaving its stack, the host context is changed so that the interrupted `execute`
    returns that pc to the interrupted main loop.

    The memory of a context comes from the stack of the host and is not cleared.
-/

namespace Umeq.Signal

/-! ## Contexts -/

def SIGNAL_LOCATION_UNKNOWN : Int := 0

def SIGNAL_LOCATION_UMEQ_CODE : Int := 1

def SIGNAL_LOCATION_JITTER_EXEC : Int := 2

def SA_ONSTACK : Nat := 0x08000000

inductive guest where
  | arm
  | arm64
  deriving DecidableEq, Repr

inductive host_arch where
  | x86_64
  | i386
  deriving DecidableEq, Repr

/-- A build of the emulator. -/
structure build where
  guest : guest
  host : host_arch
  executable_start : Nat
  etext : Nat
  /-- What `lookup_pc` and `find_insn_offset` find for a host address. -/
  insn_offset : Nat → Nat

/-- Values of a guest register. -/
def guest.modulus : guest → Nat
  | .arm => 2 ^ 32
  | .arm64 => 2 ^ 64

/-- The registers of the guest; `r` has those that are neither the stack pointer nor the
    program counter. -/
structure guest_registers where
  r : Nat → Nat
  sp : Nat
  pc : Nat
  /-- `cpsr` or `nzcv`. -/
  flags : Nat

structure target_context where
  regs : guest_registers
  helper_pc : Nat
  isLooping : Bool
  /-- `target.isLooping` is still `isLooping_firstcall`. -/
  firstcall : Bool
  exitStatus : Nat
  is_in_signal : Bool
  in_signal_location : Int
  sas_ss_sp : Nat
  sas_ss_size : Nat
  start_on_sig_stack : Bool

/-- The host context of the signal: where it has come, and the result of
    `request_signal_alternate_exit`. -/
structure ucontext where
  pc : Nat
  sp : Nat
  alternate_exit : Option Nat

/-- `struct host_signal_info` and the entry of the table for the signal. -/
structure signal_info where
  signum : Nat
  handler : Nat
  sa_flags : Nat
  is_sigaction_handler : Bool

/-! ## Entry -/

/-- The location and the pc of the interrupted instruction. -/
def restore_precise_pc (b : build) (prev : target_context) (ucp : ucontext) (in_signal_location : Int) :
    Nat × Int :=
  if prev.helper_pc ≠ 0 then (prev.helper_pc, SIGNAL_LOCATION_JITTER_EXEC)
  else if ucp.pc ≥ b.executable_start ∧ ucp.pc < b.etext then
    (prev.regs.pc, SIGNAL_LOCATION_UMEQ_CODE)
  else
    let pc := (prev.regs.pc + b.insn_offset ucp.pc) % b.guest.modulus
    match b.guest with
    -- the arm target does not write the location here
    | .arm => (pc, in_signal_location)
    | .arm64 => (pc, SIGNAL_LOCATION_JITTER_EXEC)

def on_sig_stack (c : target_context) (sp : Nat) : Bool :=
  sp > c.sas_ss_sp && sp - c.sas_ss_sp ≤ c.sas_ss_size

/-- `sas_ss_flags` is zero: there is another stack and it is not in use. -/
def sas_ss_free (c : target_context) (sp : Nat) : Bool :=
  c.sas_ss_size ≠ 0 && !on_sig_stack c sp

def sigsp (b : build) (prev : target_context) (i : signal_info) : Nat :=
  if i.sa_flags &&& SA_ONSTACK ≠ 0 ∧ sas_ss_free prev prev.regs.sp then
    (prev.sas_ss_sp + prev.sas_ss_size) % b.guest.modulus
  else prev.regs.sp

/-- `sp - size` in a guest register. -/
def below (b : build) (sp size : Nat) : Nat := (sp + b.guest.modulus - size) % b.guest.modulus

/-- The stack pointer at which the frames start: `(sp - 128) & ~15`. -/
def frame_base (b : build) (prev : target_context) (i : signal_info) : Nat :=
  let sp := below b (sigsp b prev i) 128
  sp - sp % 16

/-- The size of the code that returns from the handler. -/
def return_code_size : Nat := 16

/-- The size of the signal frame. -/
def frame_size (b : build) (i : signal_info) : Nat :=
  match b.guest with
  | .arm => if i.is_sigaction_handler then 880 else 752
  | .arm64 => 4704

/-- The registers with which the handler starts. -/
def handler_registers (b : build) (prev : target_context) (i : signal_info) : guest_registers :=
  let return_code := below b (frame_base b prev i) return_code_size
  let sp := below b return_code (frame_size b i)
  let r := match b.guest with
    | .arm => Function.update prev.regs.r 14 return_code
    | .arm64 => Function.update (Function.update (fun _ => 0) 29 ((sp + 4688) % b.guest.modulus))
        30 return_code
  let r := Function.update r 0 i.signum
  { r := if i.is_sigaction_handler then
      Function.update (Function.update r 1 sp) 2 ((sp + 128) % b.guest.modulus) else r
    sp := sp
    pc := i.handler
    flags := prev.regs.flags }

/-- `init` for a signal, in the memory `m`: the new context, the interrupted one, whose
    pc becomes the precise one, and the frame, which holds its registers. -/
def init (b : build) (m prev : target_context) (ucp : ucontext) (i : signal_info) :
    target_context × target_context × guest_registers :=
  let (pc, location) := restore_precise_pc b prev ucp m.in_signal_location
  let prev := { prev with regs := { prev.regs with pc := pc } }
  ({ m with
      regs := handler_registers b prev i
      isLooping := true
      firstcall := true
      exitStatus := 0
      is_in_signal := true
      in_signal_location := location
      sas_ss_sp := prev.sas_ss_sp
      sas_ss_size := prev.sas_ss_size
      start_on_sig_stack := on_sig_stack prev (frame_base b prev i) }, prev, prev.regs)

/-! ## The main loop of the handler -/

def is_out_of_signal_stack (c prev : target_context) : Bool :=
  if !c.start_on_sig_stack then c.regs.sp ≥ prev.regs.sp
  else if prev.start_on_sig_stack then c.regs.sp ≥ prev.regs.sp || !on_sig_stack c c.regs.sp
  else !on_sig_stack c c.regs.sp

/-- `isLooping`, and `isLooping_firstcall` for the first call. -/
def isLooping (c prev : target_context) : target_context :=
  if c.firstcall then { c with firstcall := false }
  else if c.is_in_signal && c.in_signal_location = SIGNAL_LOCATION_JITTER_EXEC &&
      is_out_of_signal_stack c prev then
    { c with
      isLooping := false
      exitStatus := 1 }
  else c

inductive loop_phase where
  | looping
  | left
  | aborted
  deriving DecidableEq, Repr

structure handler_state where
  context : target_context
  prev : target_context
  /-- The frame of the signal, in the memory of the guest. -/
  frame : guest_registers
  ucp : ucontext
  phase : loop_phase
  /-- The pc that the handler has asked for when its loop is left. -/
  asked : Option Nat

def request_signal_alternate_exit (ucp : ucontext) (result : Nat) : ucontext :=
  { ucp with alternate_exit := some result }

/-- The pc that the handler asks for: the one it has reached out of its stack, or the one
    in its frame when that is another than the interrupted one. -/
def asked_pc (s : handler_state) : Option Nat :=
  if s.context.exitStatus ≠ 0 then some s.context.regs.pc
  else if s.prev.regs.pc ≠ s.frame.pc then some s.frame.pc
  else none

/-- What the arm64 target copies to the interrupted context when the handler has left its
    stack; the arm target copies the flags too. -/
def copied_registers (b : build) (c prev : target_context) : guest_registers :=
  match b.guest with
  | .arm => c.regs
  | .arm64 => { c.regs with flags := prev.regs.flags }

/-- `getExitStatus` of a signal context. -/
def getExitStatus (b : build) (s : handler_state) : handler_state :=
  let s := { s with asked := asked_pc s }
  let located := s.context.in_signal_location = SIGNAL_LOCATION_JITTER_EXEC
  if s.context.exitStatus ≠ 0 then
    if located then
      { s with
        prev := { s.prev with regs := copied_registers b s.context s.prev }
        ucp := request_signal_alternate_exit s.ucp s.context.regs.pc
        phase := .left }
    else { s with phase := .aborted }
  else
    let is_pc_change := s.prev.regs.pc ≠ s.frame.pc
    let s := { s with prev := { s.prev with regs := s.frame } }
    if is_pc_change then
      if located then
        { s with
          ucp := request_signal_alternate_exit s.ucp s.frame.pc
          phase := .left }
      else { s with phase := .aborted }
    else { s with phase := .left }

/-- What a block of the handler, with the signals that are taken meanwhile, does to its
    registers, its frame and its other stack, and whether it ends with `rt_sigreturn`. -/
structure block_effect where
  regs : guest_registers
  helper_pc : Nat
  frame : guest_registers
  sas_ss_sp : Nat
  sas_ss_size : Nat
  sigreturn : Bool

def run_block (s : handler_state) (e : block_effect) : handler_state :=
  { s with
    context := { s.context with
      regs := e.regs
      helper_pc := e.helper_pc
      sas_ss_sp := e.sas_ss_sp
      sas_ss_size := e.sas_ss_size
      isLooping := !e.sigreturn && s.context.isLooping
      exitStatus := if e.sigreturn then 0 else s.context.exitStatus }
    frame := e.frame }

/-- One turn of the loop: the block, or `getExitStatus` when the loop is left. -/
def turn (b : build) (s : handler_state) (e : block_effect) : handler_state :=
  let s := { s with context := isLooping s.context s.prev }
  if s.context.isLooping then run_block s e else getExitStatus b s

def handler_runs (b : build) (m prev : target_context) (ucp : ucontext) (i : signal_info) :
    Runs.System handler_state block_effect where
  init :=
    let (c, prev, frame) := init b m prev ucp i
    ⟨c, prev, frame, ucp, .looping, none⟩
  exec := fun s e => if s.phase = .looping then some (turn b s e) else none

/-! ## Back to the interrupted loop -/

/-- The stack pointer that `restore_be_x86_64` and `restore_be_i386` set, where `saved` is
    that of `execute`. The former loads 16 bits of it. -/
def restored_sp (h : host_arch) (saved sp : Nat) : Nat :=
  match h with
  | .x86_64 => sp / 2 ^ 16 * 2 ^ 16 + saved % 2 ^ 16
  | .i386 => saved

/-- The pc with which the interrupted `execute` returns once the handler is left. -/
def resumed (b : build) (saved : Nat) (ucp : ucontext) : Option Nat :=
  match ucp.alternate_exit with
  | some result => if restored_sp b.host saved ucp.sp = saved then some result else none
  | none => none

/-- The signal can be left: it is known to have come in guest code, a handler out of its
    stack is left, no assertion fails, and the interrupted loop gets the pc asked for. -/
structure CanLeave (b : build) (saved : Nat) (s : handler_state) : Prop where
  location : s.context.in_signal_location = SIGNAL_LOCATION_JITTER_EXEC
  escape : s.context.firstcall = false → is_out_of_signal_stack s.context s.prev →
    (isLooping s.context s.prev).isLooping = false
  asserts : s.phase ≠ .aborted
  resumes : s.phase = .left → ∀ pc, s.asked = some pc →
    resumed b saved s.ucp = some pc ∧ s.prev.regs.pc = pc

/-- The location is written, or the memory of the context happens to hold it. -/
def located (b : build) (m prev : target_context) (ucp : ucontext) : Prop :=
  prev.helper_pc ≠ 0 ∨
    ¬ (ucp.pc ≥ b.executable_start ∧ ucp.pc < b.etext) ∧
      (b.guest = .arm64 ∨ m.in_signal_location = SIGNAL_LOCATION_JITTER_EXEC)

/-- The 16 bits that `restore_be_x86_64` loads are enough. -/
def same_window (b : build) (saved : Nat) (ucp : ucontext) : Prop :=
  b.host = .x86_64 → ucp.sp / 2 ^ 16 = saved / 2 ^ 16

theorem restored_sp_eq_iff (h : host_arch) (saved sp : Nat) :
    restored_sp h saved sp = saved ↔ (h = .x86_64 → sp / 2 ^ 16 = saved / 2 ^ 16) := by
  cases h with
  | x86_64 =>
    simp only [restored_sp, true_implies]
    omega
  | i386 => simp [restored_sp]

theorem location_iff_located (b : build) (m prev : target_context) (ucp : ucontext) :
    (restore_precise_pc b prev ucp m.in_signal_location).2 = SIGNAL_LOCATION_JITTER_EXEC ↔
      located b m prev ucp := by
  unfold restore_precise_pc located
  by_cases hhelper : prev.helper_pc ≠ 0
  · simp [hhelper]
  · rw [if_neg hhelper]
    by_cases htext : ucp.pc ≥ b.executable_start ∧ ucp.pc < b.etext
    · rw [if_pos htext]
      have hne : SIGNAL_LOCATION_UMEQ_CODE ≠ SIGNAL_LOCATION_JITTER_EXEC := by decide
      simp [hhelper, htext, hne]
    · rw [if_neg htext]
      cases b.guest <;> simp [hhelper, htext]

section turns

variable {b : build} {m prev : target_context} {ucp : ucontext} {i : signal_info} {saved : Nat}

/-- What the turns of a handler keep: the location, the host context until the loop is
    left, and then an exit with the pc asked for. -/
structure Handled (ucp : ucontext) (s : handler_state) : Prop where
  location : s.context.in_signal_location = SIGNAL_LOCATION_JITTER_EXEC
  in_signal : s.context.is_in_signal = true
  asserts : s.phase ≠ .aborted
  sp : s.ucp.sp = ucp.sp
  exits : s.phase = .left → ∀ pc, s.asked = some pc →
    s.ucp.alternate_exit = some pc ∧ s.prev.regs.pc = pc

theorem isLooping_location (c prev : target_context) :
    (isLooping c prev).in_signal_location = c.in_signal_location ∧
      (isLooping c prev).is_in_signal = c.is_in_signal := by
  unfold isLooping
  split_ifs
  · exact ⟨rfl, rfl⟩
  · exact ⟨rfl, rfl⟩
  · exact ⟨rfl, rfl⟩

/-- With the location recorded, no assertion of `getExitStatus` fails, and the pc asked
    for is the one the host context and the interrupted context get. -/
theorem getExitStatus_handled {s : handler_state}
    (hloc : s.context.in_signal_location = SIGNAL_LOCATION_JITTER_EXEC)
    (hin : s.context.is_in_signal = true) (hsp : s.ucp.sp = ucp.sp) :
    Handled ucp (getExitStatus b s) := by
  unfold getExitStatus
  dsimp only
  split_ifs with hstatus hpc
  · refine ⟨hloc, hin, fun h => (by cases h), hsp, ?_⟩
    intro _ pc hpc
    simp only [asked_pc, if_pos hstatus, Option.some.injEq] at hpc
    subst hpc
    refine ⟨rfl, ?_⟩
    show (copied_registers b s.context s.prev).pc = _
    unfold copied_registers
    cases b.guest <;> rfl
  · refine ⟨hloc, hin, fun h => (by cases h), hsp, ?_⟩
    intro _ pc hasked
    simp only [asked_pc, if_neg hstatus, if_pos hpc, Option.some.injEq] at hasked
    subst hasked
    exact ⟨rfl, rfl⟩
  · refine ⟨hloc, hin, fun h => (by cases h), hsp, ?_⟩
    intro _ pc hasked
    simp only [asked_pc, if_neg hstatus, if_neg hpc] at hasked
    cases hasked

theorem turn_handled {s : handler_state} (hs : Handled ucp s) (hphase : s.phase = .looping)
    (e : block_effect) : Handled ucp (turn b s e) := by
  obtain ⟨hloc, hin⟩ := isLooping_location s.context s.prev
  unfold turn
  dsimp only
  split_ifs
  · refine ⟨?_, ?_, hs.asserts, hs.sp, ?_⟩
    · exact hloc.trans hs.location
    · exact hin.trans hs.in_signal
    · intro hleft
      have hlooping : loop_phase.looping = .left := hphase.symm.trans hleft
      cases hlooping
  · exact getExitStatus_handled (hloc.trans hs.location) (hin.trans hs.in_signal) hs.sp

theorem run_handled (hlocated : located b m prev ucp) {s : handler_state}
    (hreach : (handler_runs b m prev ucp i).Reach (fun _ _ => True) s) : Handled ucp s := by
  refine hreach.invariant ?_ ?_
  · refine ⟨(location_iff_located b m prev ucp).2 hlocated, rfl, fun h => (by cases h), rfl, ?_⟩
    intro h
    cases h
  · intro s e s' hs _ hexec
    simp only [handler_runs] at hexec
    split_ifs at hexec with hphase
    obtain rfl := Option.some.inj hexec
    exact turn_handled hs hphase e

theorem Handled.canLeave {s : handler_state} (hs : Handled ucp s)
    (hwindow : same_window b saved ucp) : CanLeave b saved s := by
  refine ⟨hs.location, ?_, hs.asserts, ?_⟩
  · intro hfirst hout
    simp [isLooping, hfirst, hs.in_signal, hs.location, hout]
  · intro hleft pc hasked
    obtain ⟨hexit, hpc⟩ := hs.exits hleft pc hasked
    refine ⟨?_, hpc⟩
    have hsp : restored_sp b.host saved s.ucp.sp = saved := by
      rw [hs.sp]
      exact (restored_sp_eq_iff _ _ _).2 hwindow
    simp only [resumed, hexit, if_pos hsp]

/-- A block after which the handler is out of its stack. -/
def escaping (c prev : target_context) : block_effect where
  regs := ⟨fun _ => 0, if c.start_on_sig_stack then 0 else prev.regs.sp, 0, 0⟩
  helper_pc := 0
  frame := prev.regs
  sas_ss_sp := 0
  sas_ss_size := 0
  sigreturn := false

/-- The handler leaves its stack with its first block, and its loop is left. -/
theorem escape_reached (hlocated : located b m prev ucp) : ∃ s,
    (handler_runs b m prev ucp i).Reach (fun _ _ => True) s ∧ s.phase = .left ∧
      s.asked = some 0 ∧ s.ucp.sp = ucp.sp := by
  have hinit := run_handled (i := i) hlocated .init
  generalize hs : (handler_runs b m prev ucp i).init = s at hinit
  have hphase : s.phase = .looping := by rw [← hs]; rfl
  have hfirst : s.context.firstcall = true := by rw [← hs]; rfl
  have hlooping : s.context.isLooping = true := by rw [← hs]; rfl
  have hreach : (handler_runs b m prev ucp i).Reach (fun _ _ => True) s := hs ▸ .init
  -- the first call of `isLooping` does not look at the stack
  have hexec₁ : (handler_runs b m prev ucp i).exec s (escaping s.context s.prev) =
      some (turn b s (escaping s.context s.prev)) := if_pos hphase
  have hreach₁ := hreach.step trivial hexec₁
  generalize hs₁ : turn b s (escaping s.context s.prev) = s₁ at hreach₁
  have hturn₁ : s₁ = run_block { s with context := { s.context with firstcall := false } }
      (escaping s.context s.prev) := by
    rw [← hs₁]
    simp [turn, isLooping, hfirst, hlooping]
  have hout : is_out_of_signal_stack s₁.context s₁.prev = true := by
    rw [hturn₁]
    unfold is_out_of_signal_stack run_block escaping on_sig_stack
    cases s.context.start_on_sig_stack <;> cases s.prev.start_on_sig_stack <;> simp
  have hphase₁ : s₁.phase = .looping := by rw [hturn₁]; exact hphase
  have hfirst₁ : s₁.context.firstcall = false := by rw [hturn₁]; rfl
  have hloc₁ := run_handled hlocated hreach₁
  have hexec₂ : (handler_runs b m prev ucp i).exec s₁ (escaping s.context s.prev) =
      some (turn b s₁ (escaping s.context s.prev)) := if_pos hphase₁
  refine ⟨_, hreach₁.step trivial hexec₂, ?_⟩
  have hleft : isLooping s₁.context s₁.prev = { s₁.context with isLooping := false, exitStatus := 1 } := by
    simp [isLooping, hfirst₁, hloc₁.in_signal, hloc₁.location, hout]
  have hturn₂ : turn b s₁ (escaping s.context s.prev) = getExitStatus b
      { s₁ with context := { s₁.context with isLooping := false, exitStatus := 1 } } := by
    simp [turn, hleft]
  rw [hturn₂]
  have hpc : s₁.context.regs.pc = 0 := by rw [hturn₁]; rfl
  refine ⟨?_, ?_, ?_⟩
  · simp [getExitStatus, hloc₁.location]
  · simp [getExitStatus, hloc₁.location, asked_pc, hpc]
  · have hsp := hloc₁.sp
    simpa [getExitStatus, hloc₁.location, request_signal_alternate_exit] using hsp

end turns

/-- A signal can be left, whatever its handler does, exactly when its location is known
    and the stack of the host is in the same window as that of `execute`. -/
theorem signal_left_iff (b : build) (m prev : target_context) (ucp : ucontext) (i : signal_info)
    (saved : Nat) :
    (∀ s, (handler_runs b m prev ucp i).Reach (fun _ _ => True) s → CanLeave b saved s) ↔
      located b m prev ucp ∧ same_window b saved ucp := by
  constructor
  · intro h
    have hlocated : located b m prev ucp :=
      (location_iff_located b m prev ucp).1 (h _ .init).location
    refine ⟨hlocated, ?_⟩
    obtain ⟨s, hreach, hleft, hasked, hsp⟩ := escape_reached (i := i) hlocated
    have hresumed := ((h s hreach).resumes hleft 0 hasked).1
    unfold resumed at hresumed
    split at hresumed
    · split_ifs at hresumed with hrestored
      rw [hsp] at hrestored
      exact (restored_sp_eq_iff _ _ _).1 hrestored
    · cases hresumed
  · rintro ⟨hlocated, hwindow⟩ s hreach
    exact (run_handled hlocated hreach).canLeave hwindow

def arm_build : build := ⟨.arm, .x86_64, 0x400000, 0x500000, fun _ => 0⟩

def arm64_build : build := ⟨.arm64, .x86_64, 0x400000, 0x500000, fun _ => 0⟩

/-- A context that runs guest code at 0x8000. -/
def running_context : target_context :=
  ⟨⟨fun _ => 0, 0x10000, 0x8000, 0⟩, 0, true, false, 0, false, SIGNAL_LOCATION_UNKNOWN, 0, 0, false⟩

/-- Jitted code, on the stack just below that of `execute`. -/
def in_jitted_code : ucontext := ⟨0x700000, 0x7ffe0000, none⟩

def usr1_info : signal_info := ⟨10, 0x9000, 0, false⟩

/-- A handler that returns with the pc 0xa000 in its frame. -/
def returns_elsewhere : block_effect :=
  ⟨⟨fun _ => 0, 0xf000, 0xfff0, 0⟩, 0, ⟨fun _ => 0, 0x10000, 0xa000, 0⟩, 0, 0, true⟩

/-- On arm, in a context whose memory was zero, the assertion of `getExitStatus` fails. -/
theorem arm_jitted_aborts : ∃ s,
    (handler_runs arm_build running_context running_context in_jitted_code usr1_info).Reach
      (fun _ _ => True) s ∧ s.phase = .aborted ∧ ¬ CanLeave arm_build 0x7ffe0008 s := by
  refine ⟨_, .step (.step .init (l := returns_elsewhere) trivial rfl) (l := returns_elsewhere)
    trivial rfl, rfl, ?_⟩
  intro h
  exact h.asserts rfl

end Umeq.Signal
