import Mathlib.Tactic.Ring
import Umeq.Lib.Runs

/-! # System call stops of a traced guest

    A tracee makes two host calls around each system call of the guest, with the commands 0
    and 1, so that its tracer can be given the stops of the guest and not those of the
    emulator. `arm64_wait4` looks at each stop of the host and gives it to the tracer or
    restarts the tracee. An exit is given only when `is_syscall_entry_show` of the context
    says that an entry was given.

    The tracer chooses at each stop that it is given how the tracee goes on, and the tracee
    may enter and leave signal contexts at any time. `syscall_stops_paired` says when an exit
    is given for a system call whose entry was not.
-/

namespace Umeq.Ptrace

/-! ## Stops of the host -/

def MAGIC1 : Nat := 0x7a711e06171129a2

def MAGIC2 : Nat := 0xc6925d1ed6dcd674

def SIGTRAP : Nat := 5

def PTRACE_EVENT_EXEC : Nat := 4

def ENOSYS : Nat := 38

def SYS_gettid : Nat := 186

def SYS_execve : Nat := 59

inductive action_t where
  | deliver
  | restart_syscall
  deriving DecidableEq, Repr

/-- The registers of a tracee that are read. -/
structure user_regs where
  orig_rax : Nat
  rax : Nat
  rdi : Nat
  rsi : Nat
  rdx : Nat

/-- A stop as the host reports it. -/
structure host_stop where
  status : Nat
  si_code : Nat
  regs : user_regs

/-- `host_exec_info` of the tracee. -/
structure exec_ptrace_info where
  exec_syscall_exit_info : Nat
  exec_event_info : Nat
  exec_event_in_signal_emulation : Nat

/-- What `arm64_wait4` reads and writes in a tracee: `is_syscall_entry_show` of the context
    that runs, and `host_exec_info`. -/
structure tracee_memory where
  is_syscall_entry_show : Nat
  info : exec_ptrace_info

/-- The old value of the flag, which is written when a guest system call is entered or left. -/
def get_and_set_entry_show (show_ command : Nat) (is_entry : Bool) : Bool × Nat :=
  if command = 2 ∨ command = 0 ∧ is_entry = false ∨ command = 1 ∧ is_entry = true then
    (false, show_)
  else (show_ ≠ 0, if is_entry then 1 else 0)

/-- `is_magic_syscall`, with the command and whether the call is entered. -/
def is_magic_syscall (regs : user_regs) : Bool × Nat × Bool :=
  (regs.rdi = MAGIC1 && regs.rsi = MAGIC2, regs.rdx % 2 ^ 32, regs.rax = 2 ^ 64 - ENOSYS)

/-- The action, `host_exec_info` and the status. There is none when an assertion fails. -/
def handle_command_2 (info : exec_ptrace_info) (is_entry : Bool) (status : Nat) :
    Option (action_t × exec_ptrace_info × Nat) :=
  let event := SIGTRAP ||| PTRACE_EVENT_EXEC <<< 8
  if info.exec_event_info = SIGTRAP then
    if is_entry then
      some (if info.exec_syscall_exit_info ≠ 0 then .deliver else .restart_syscall, info, status)
    else
      some (.deliver, { info with exec_event_in_signal_emulation := SIGTRAP }, (SIGTRAP <<< 8) ||| 0x7f)
  else if info.exec_event_info = event then
    if is_entry then
      some (.deliver, { info with exec_event_in_signal_emulation := event }, (event <<< 8) ||| 0x7f)
    else if info.exec_syscall_exit_info ≠ 0 then some (.deliver, info, status)
    else none
  else none

def handle_syscall_stop (m : tracee_memory) (regs : user_regs) (signal status : Nat) :
    Option (action_t × tracee_memory × Nat) :=
  let (is_magic, command, is_entry) := is_magic_syscall regs
  if is_magic then
    let (is_entry_was_show, show_) := get_and_set_entry_show m.is_syscall_entry_show command is_entry
    let m := { m with is_syscall_entry_show := show_ }
    match command with
    | 0 => some (if is_entry then .deliver else .restart_syscall, m, status)
    | 1 =>
      let action := if is_entry then action_t.restart_syscall else .deliver
      some (if is_entry_was_show then action else .restart_syscall, m, status)
    | 2 => (handle_command_2 m.info is_entry status).map fun r => (r.1, { m with info := r.2.1 }, r.2.2)
    | _ => none
  else if regs.orig_rax = SYS_execve then
    some (.restart_syscall, { m with info := { m.info with exec_syscall_exit_info := signal } }, status)
  else some (.restart_syscall, m, status)

def WIFEXITED (status : Nat) : Bool := status % 128 = 0

def WIFSIGNALED (status : Nat) : Bool := status % 128 ≠ 0 && status % 128 ≠ 127

def WIFSTOPPED (status : Nat) : Bool := status % 256 = 127

def WIFCONTINUED (status : Nat) : Bool := status = 0xffff

def register_execve_event (m : tracee_memory) (signal : Nat) : tracee_memory :=
  { m with info := { m.info with exec_event_info := signal } }

/-- One turn of the loop of `arm64_wait4`, outside proot, for a caller that has given a place
    for the status or not. -/
def wait4_turn (wants_status : Bool) (m : tracee_memory) (stop : host_stop) :
    Option (action_t × tracee_memory × Nat) :=
  let status := stop.status
  if wants_status then
    if WIFEXITED status then some (.deliver, m, status)
    else if WIFSIGNALED status then some (.deliver, m, status)
    else if WIFSTOPPED status then
      let signal := status / 2 ^ 8 % 2 ^ 12
      let m := { m with info := { m.info with exec_event_in_signal_emulation := 0 } }
      if signal = SIGTRAP then
        -- `is_syscall_stop`, and else `is_execve_event`
        if stop.si_code = SIGTRAP then handle_syscall_stop m stop.regs signal status
        else if m.info.exec_event_info = 0 then
          some (.restart_syscall, register_execve_event m signal, status)
        else some (.deliver, m, status)
      else if signal = SIGTRAP ||| 0x80 then handle_syscall_stop m stop.regs signal status
      else if signal = SIGTRAP ||| PTRACE_EVENT_EXEC <<< 8 then
        some (.restart_syscall, register_execve_event m signal, status)
      else some (.deliver, m, status)
    else if WIFCONTINUED status then some (.deliver, m, status)
    else none
  else some (.deliver, m, status)

/-! ## The tracee and its tracer -/

/-- Where a context is in its system calls, which are numbered. -/
inductive call_phase where
  | idle
  /-- In the host call of `ptrace_syscall_enter`. -/
  | entering (call : Nat)
  | inside (call : Nat)
  /-- In the host call of `ptrace_syscall_exit`. -/
  | exiting (call : Nat)
  deriving DecidableEq, Repr

structure ptrace_context where
  is_syscall_entry_show : Nat
  phase : call_phase

/-- How the tracer goes on at a stop that it is given: with `PTRACE_SYSCALL` or with
    `PTRACE_CONT`, with `PTRACE_O_TRACESYSGOOD` or not, and with a place for the status in its
    next call or not. -/
structure tracer_mode where
  syscall : Bool
  sysgood : Bool
  wants_status : Bool

/-- The history: the memory in which the context at a depth was made, and the two ends of
    guest system calls at which `arm64_wait4` had a stop. -/
inductive seen where
  | memory (depth m : Nat)
  /-- The entry was given to the tracer. -/
  | entry (depth call : Nat) (wants_status : Bool)
  | exit (depth call : Nat) (wants_status delivered : Bool)
  deriving DecidableEq, Repr

/-- The newest entry of the log is the first. -/
structure ptrace_state where
  current : ptrace_context
  /-- The contexts that signals have interrupted. -/
  outer : List ptrace_context
  info : exec_ptrace_info
  tracer : tracer_mode
  calls : Nat
  log : List seen

inductive ptrace_event where
  /-- The tracee comes to the next end of a host call around its guest system calls. The tracer
      goes on so when it is given the stop. -/
  | host (mode : tracer_mode)
  /-- Any other stop. -/
  | stop (stop : host_stop) (mode : tracer_mode)
  /-- A signal context is made in memory that has `m` at the place of the flag, which `init`
      does not write. -/
  | signal (m : Nat)
  /-- The signal context is left for where the signal came. -/
  | returns
  /-- The signal context is left for another pc, and the system call that was interrupted, if
      any, is abandoned. -/
  | leaves

/-- The next host call: its command, whether it is entered, and the phase after it. -/
def call_phase.next (calls : Nat) : call_phase → Nat × Bool × call_phase
  | .idle => (0, true, .entering calls)
  | .entering call => (0, false, .inside call)
  | .inside call => (1, true, .exiting call)
  | .exiting _ => (1, false, .idle)

/-- The stop of the host at an end of `syscall(SYS_gettid, MAGIC1, MAGIC2, command)`. -/
def magic_stop (tid : Fin (2 ^ 22)) (sysgood : Bool) (command : Nat) (is_entry : Bool) : host_stop :=
  let signal := if sysgood then SIGTRAP ||| 0x80 else SIGTRAP
  { status := signal * 2 ^ 8 + 0x7f
    si_code := signal
    regs :=
      { orig_rax := SYS_gettid
        rax := if is_entry then 2 ^ 64 - ENOSYS else tid
        rdi := MAGIC1
        rsi := MAGIC2
        rdx := command } }

/-- A stop that is no end of a host call with the command 0 or 1. -/
def host_stop.other (stop : host_stop) : Bool :=
  let (is_magic, command, _) := is_magic_syscall stop.regs
  let signal := stop.status / 2 ^ 8 % 2 ^ 12
  let syscall := WIFSTOPPED stop.status &&
    (signal = SIGTRAP && stop.si_code = SIGTRAP || signal = SIGTRAP ||| 0x80)
  !(syscall && is_magic && (command = 0 || command = 1))

/-- The tracer after a stop: its own choice when it was given the stop, else
    `restart_tracee`. -/
def tracer_mode.after (tracer mode : tracer_mode) : action_t → tracer_mode
  | .deliver => mode
  | .restart_syscall => { tracer with syscall := true }

/-- What goes to the log at an end of a host call. -/
def call_phase.record (depth calls : Nat) (wants_status : Bool) (action : action_t) :
    call_phase → List seen
  | .idle => if action = .deliver then [.entry depth calls wants_status] else []
  | .exiting call => [.exit depth call wants_status (action = .deliver)]
  | _ => []

section system

variable (tid : Fin (2 ^ 22))

/-- The next end of a host call, which stops only when the tracer listens. -/
def host_step (s : ptrace_state) (mode : tracer_mode) : Option ptrace_state :=
  let (command, is_entry, phase) := s.current.phase.next s.calls
  let calls := if s.current.phase = .idle then s.calls + 1 else s.calls
  if s.tracer.syscall then
    (wait4_turn s.tracer.wants_status ⟨s.current.is_syscall_entry_show, s.info⟩
        (magic_stop tid s.tracer.sysgood command is_entry)).map fun (action, m, _) =>
      { s with
        current := ⟨m.is_syscall_entry_show, phase⟩
        info := m.info
        tracer := s.tracer.after mode action
        calls := calls
        log := s.current.phase.record s.outer.length s.calls s.tracer.wants_status action ++ s.log }
  else some { s with current := { s.current with phase := phase }, calls := calls }

def ptrace_step (s : ptrace_state) : ptrace_event → Option ptrace_state
  | .host mode => host_step tid s mode
  | .stop stop mode =>
    if stop.other then
      (wait4_turn s.tracer.wants_status ⟨s.current.is_syscall_entry_show, s.info⟩ stop).map
        fun (action, m, _) =>
          { s with
            current := { s.current with is_syscall_entry_show := m.is_syscall_entry_show }
            info := m.info
            tracer := s.tracer.after mode action }
    else none
  | .signal m =>
    some { s with
      current := ⟨m, .idle⟩
      outer := s.current :: s.outer
      log := .memory (s.outer.length + 1) m :: s.log }
  | .returns =>
    match s.current.phase, s.outer with
    | .idle, prev :: rest => some { s with current := prev, outer := rest }
    | _, _ => none
  | .leaves =>
    match s.current.phase, s.outer with
    | .idle, prev :: rest =>
      some { s with current := { prev with phase := .idle }, outer := rest }
    | _, _ => none

/-- A tracee, whose context was made in memory that has `m` at the place of the flag, and its
    tracer, which has not yet been given a stop. -/
def ptrace_runs (m : Nat) : Runs.System ptrace_state ptrace_event where
  init := ⟨⟨m, .idle⟩, [], ⟨0, 0, 0⟩, ⟨false, false, true⟩, 0, [.memory 0 m]⟩
  exec := ptrace_step tid

end system

/-! ## Pairs -/

/-- An exit is given to the tracer only for a system call whose entry was. -/
def Paired (s : ptrace_state) : Prop :=
  ∀ depth call wants_status, seen.exit depth call wants_status true ∈ s.log →
    ∃ depth wants_status, seen.entry depth call wants_status ∈ s.log

/-- The part of the history of the context at a depth that counts: the stops at which the
    tracer gave no place for the status are not looked at. -/
def seen.of_context (depth : Nat) : seen → Bool
  | .memory d _ => d = depth
  | .entry d _ wants_status => wants_status && d = depth
  | .exit d _ wants_status _ => wants_status && d = depth

/-- The tracer was given an entry in the context at this depth and has not seen an exit in it
    since, or it has seen neither and the memory of the context was not zero. -/
def unanswered (log : List seen) (depth : Nat) : Bool :=
  match log.find? (seen.of_context depth) with
  | some (.memory _ m) => m ≠ 0
  | some (.entry ..) => true
  | _ => false

/-- When the tracer listens at the exit of a system call whose entry it was not given, it gives
    a place for the status and no earlier entry in the context is unanswered. -/
def KeepsPairs (s : ptrace_state) : ptrace_event → Prop
  | .host _ => ∀ call, s.current.phase = .exiting call → s.tracer.syscall →
    (∃ depth wants_status, seen.entry depth call wants_status ∈ s.log) ∨
      s.tracer.wants_status ∧ unanswered s.log s.outer.length = false
  | _ => True

section stops

variable (tid : Fin (2 ^ 22)) (m : tracee_memory)

theorem is_magic_syscall_magic_stop (sysgood : Bool) {command : Nat} (hcommand : command < 2)
    (is_entry : Bool) :
    is_magic_syscall (magic_stop tid sysgood command is_entry).regs = (true, command, is_entry) := by
  have hmod : command % 2 ^ 32 = command := Nat.mod_eq_of_lt (by omega)
  have hrax : decide ((if is_entry then 2 ^ 64 - ENOSYS else (tid : Nat)) = 2 ^ 64 - ENOSYS) = is_entry := by
    have htid := tid.isLt
    cases is_entry with
    | true => rfl
    | false =>
      apply decide_eq_false
      show (tid : Nat) ≠ 2 ^ 64 - ENOSYS
      unfold ENOSYS
      omega
  exact Prod.ext rfl (Prod.ext hmod hrax)

/-- A stop of a host call is looked at by `handle_syscall_stop`, with and without
    `PTRACE_O_TRACESYSGOOD`. -/
theorem wait4_turn_magic_stop (sysgood : Bool) (command : Nat) (is_entry : Bool) :
    ∃ info signal status, wait4_turn true m (magic_stop tid sysgood command is_entry) =
      handle_syscall_stop { m with info := info } (magic_stop tid sysgood command is_entry).regs
        signal status := by
  refine ⟨{ m.info with exec_event_in_signal_emulation := 0 }, ?_⟩
  cases sysgood with
  | true =>
    refine ⟨SIGTRAP ||| 0x80, (SIGTRAP ||| 0x80) * 2 ^ 8 + 0x7f, ?_⟩
    simp [wait4_turn, magic_stop, WIFEXITED, WIFSIGNALED, WIFSTOPPED, SIGTRAP]
  | false =>
    refine ⟨SIGTRAP, SIGTRAP * 2 ^ 8 + 0x7f, ?_⟩
    simp [wait4_turn, magic_stop, WIFEXITED, WIFSIGNALED, WIFSTOPPED, SIGTRAP]

/-- The action at an end of a host call, for a tracer that gives a place for the status. -/
def magic_action (show_ command : Nat) (is_entry : Bool) : action_t :=
  if command = 0 ∧ is_entry ∨ command = 1 ∧ !is_entry ∧ show_ ≠ 0 then .deliver else .restart_syscall

theorem wait4_turn_magic (sysgood : Bool) {command : Nat} (hcommand : command < 2) (is_entry : Bool) :
    ∃ info status, wait4_turn true m (magic_stop tid sysgood command is_entry) =
      some (magic_action m.is_syscall_entry_show command is_entry,
        ⟨(get_and_set_entry_show m.is_syscall_entry_show command is_entry).2, info⟩, status) := by
  obtain ⟨info, signal, status, hturn⟩ := wait4_turn_magic_stop tid m sysgood command is_entry
  refine ⟨info, status, ?_⟩
  rw [hturn]
  unfold handle_syscall_stop
  rw [is_magic_syscall_magic_stop tid sysgood hcommand]
  obtain rfl | rfl : command = 0 ∨ command = 1 := by omega
  · cases is_entry <;> simp [magic_action]
  · cases is_entry <;> simp [magic_action, get_and_set_entry_show]

/-- The flag is written at the ends of those host calls only. -/
theorem handle_syscall_stop_show {regs : user_regs} {signal status : Nat}
    {r : action_t × tracee_memory × Nat} (h : handle_syscall_stop m regs signal status = some r)
    (hother : (is_magic_syscall regs).1 = false ∨
      (is_magic_syscall regs).2.1 ≠ 0 ∧ (is_magic_syscall regs).2.1 ≠ 1) :
    r.2.1.is_syscall_entry_show = m.is_syscall_entry_show := by
  unfold handle_syscall_stop at h
  generalize is_magic_syscall regs = magic at h hother
  obtain ⟨is_magic, command, is_entry⟩ := magic
  cases is_magic with
  | true =>
    obtain hmagic | ⟨h0, h1⟩ := hother
    · cases hmagic
    · simp only [if_true] at h
      split at h
      · exact absurd rfl h0
      · exact absurd rfl h1
      · obtain ⟨_, _, rfl⟩ := Option.map_eq_some_iff.1 h
        simp [get_and_set_entry_show]
      · cases h
  | false =>
    simp only [Bool.false_eq_true, if_false] at h
    split_ifs at h with hexecve
    · obtain rfl := Option.some.inj h
      rfl
    · obtain rfl := Option.some.inj h
      rfl

theorem wait4_turn_other {wants_status : Bool} {stop : host_stop} {r : action_t × tracee_memory × Nat}
    (hother : stop.other = true) (h : wait4_turn wants_status m stop = some r) :
    r.2.1.is_syscall_entry_show = m.is_syscall_entry_show := by
  have hnot : WIFSTOPPED stop.status = true →
      stop.status / 2 ^ 8 % 2 ^ 12 = SIGTRAP ∧ stop.si_code = SIGTRAP ∨
        stop.status / 2 ^ 8 % 2 ^ 12 = SIGTRAP ||| 0x80 →
      (is_magic_syscall stop.regs).1 = false ∨
        (is_magic_syscall stop.regs).2.1 ≠ 0 ∧ (is_magic_syscall stop.regs).2.1 ≠ 1 := by
    intro hstopped hsignal
    by_cases hmagic : (is_magic_syscall stop.regs).1 = false
    · exact .inl hmagic
    · right
      simp only [host_stop.other, hstopped, hmagic] at hother
      obtain ⟨htrap, hcode⟩ | hsysgood := hsignal
      · simp only [htrap, hcode] at hother
        simpa using hother
      · simp only [hsysgood] at hother
        simpa using hother
  unfold wait4_turn at h
  dsimp only at h
  split_ifs at h with hwants hexited hsignaled hstopped htrap hcode hevent hsysgood hexec hcontinued
  · exact Option.some.inj h ▸ rfl
  · exact Option.some.inj h ▸ rfl
  · exact (handle_syscall_stop_show _ h (hnot hstopped (.inl ⟨htrap, hcode⟩)) :)
  · exact Option.some.inj h ▸ rfl
  · exact Option.some.inj h ▸ rfl
  · exact (handle_syscall_stop_show _ h (hnot hstopped (.inr hsysgood)) :)
  · exact Option.some.inj h ▸ rfl
  · exact Option.some.inj h ▸ rfl
  · exact Option.some.inj h ▸ rfl
  · exact Option.some.inj h ▸ rfl

end stops

section pairs

variable {tid : Fin (2 ^ 22)} {s s' : ptrace_state} {e : ptrace_event} {mode : tracer_mode}
  {log : List seen}

/-- What an end of a host call does to the flag and the log. -/
theorem host_step_cases (hstep : host_step tid s mode = some s') :
    s'.outer = s.outer ∧
    ((s.tracer.syscall = true → ∀ call, s.current.phase ≠ .exiting call) ∧ s'.log = s.log ∧
        s'.current.is_syscall_entry_show = s.current.is_syscall_entry_show ∨
      s.current.phase = .idle ∧
        s'.log = .entry s.outer.length s.calls s.tracer.wants_status :: s.log ∧
        s'.current.is_syscall_entry_show =
          (if s.tracer.wants_status then 1 else s.current.is_syscall_entry_show) ∨
      ∃ call, s.current.phase = .exiting call ∧ s.tracer.syscall = true ∧
        s'.log = .exit s.outer.length call s.tracer.wants_status
          (!s.tracer.wants_status || s.current.is_syscall_entry_show ≠ 0) :: s.log ∧
        s'.current.is_syscall_entry_show =
          (if s.tracer.wants_status then 0 else s.current.is_syscall_entry_show)) := by
  unfold host_step at hstep
  by_cases hlistens : s.tracer.syscall = true
  swap
  · -- nobody listens
    simp only [hlistens] at hstep
    obtain rfl := Option.some.inj hstep
    exact ⟨rfl, .inl ⟨fun h => absurd h hlistens, rfl, rfl⟩⟩
  · simp only [hlistens, if_true] at hstep
    cases hwants : s.tracer.wants_status with
    | false =>
      -- each stop is given as it is
      rw [hwants] at hstep
      obtain rfl := Option.some.inj hstep
      refine ⟨rfl, ?_⟩
      cases hphase : s.current.phase with
      | idle => exact .inr (.inl ⟨rfl, rfl, rfl⟩)
      | entering call => exact .inl ⟨fun _ _ => (by rintro ⟨⟩), rfl, rfl⟩
      | inside call => exact .inl ⟨fun _ _ => (by rintro ⟨⟩), rfl, rfl⟩
      | exiting call => exact .inr (.inr ⟨call, rfl, hlistens, rfl, rfl⟩)
    | true =>
      rw [hwants] at hstep
      have hturn := fun command (hcommand : command < 2) is_entry => wait4_turn_magic tid
        ⟨s.current.is_syscall_entry_show, s.info⟩ s.tracer.sysgood hcommand is_entry
      cases hphase : s.current.phase with
      | idle =>
        obtain ⟨info, status, hturn⟩ := hturn 0 (by decide) true
        rw [hphase, call_phase.next, hturn] at hstep
        obtain rfl := Option.some.inj hstep
        exact ⟨rfl, .inr (.inl ⟨rfl, rfl, rfl⟩)⟩
      | entering call =>
        obtain ⟨info, status, hturn⟩ := hturn 0 (by decide) false
        rw [hphase, call_phase.next, hturn] at hstep
        obtain rfl := Option.some.inj hstep
        exact ⟨rfl, .inl ⟨fun _ _ => (by rintro ⟨⟩), rfl, rfl⟩⟩
      | inside call =>
        obtain ⟨info, status, hturn⟩ := hturn 1 (by decide) true
        rw [hphase, call_phase.next, hturn] at hstep
        obtain rfl := Option.some.inj hstep
        exact ⟨rfl, .inl ⟨fun _ _ => (by rintro ⟨⟩), rfl, rfl⟩⟩
      | exiting call =>
        obtain ⟨info, status, hturn⟩ := hturn 1 (by decide) false
        rw [hphase, call_phase.next, hturn] at hstep
        obtain rfl := Option.some.inj hstep
        refine ⟨rfl, .inr (.inr ⟨call, rfl, hlistens, ?_, rfl⟩)⟩
        simp [call_phase.record, magic_action]

/-- The flag of each context says whether an entry in it is unanswered. -/
def Shown (log : List seen) : List ptrace_context → Prop
  | [] => True
  | c :: outer => (c.is_syscall_entry_show ≠ 0 ↔ unanswered log outer.length = true) ∧ Shown log outer

theorem unanswered_cons_of_not {r : seen} {depth : Nat} (hr : r.of_context depth = false) :
    unanswered (r :: log) depth = unanswered log depth := by
  unfold unanswered
  rw [List.find?_cons, hr]

/-- What happens in one context says nothing about the contexts outside it. -/
theorem shown_cons {r : seen} {contexts : List ptrace_context}
    (hr : ∀ depth < contexts.length, r.of_context depth = false) (hshown : Shown log contexts) :
    Shown (r :: log) contexts := by
  induction contexts with
  | nil => exact trivial
  | cons c outer ih =>
    obtain ⟨hc, houter⟩ := hshown
    refine ⟨?_, ih (fun depth hdepth => hr depth (Nat.lt_succ_of_lt hdepth)) houter⟩
    rw [unanswered_cons_of_not (hr outer.length (Nat.lt_succ_self _))]
    exact hc

def ShownState (s : ptrace_state) : Prop := Shown s.log (s.current :: s.outer)

theorem host_step_shown (hs : ShownState s) (hstep : host_step tid s mode = some s') :
    ShownState s' := by
  obtain ⟨hcurrent, houter⟩ := hs
  obtain ⟨hlen, ⟨-, hlog, hshow⟩ | ⟨-, hlog, hshow⟩ | ⟨call, -, -, hlog, hshow⟩⟩ :=
    host_step_cases hstep
  · unfold ShownState Shown
    rw [hlen, hlog, hshow]
    exact ⟨hcurrent, houter⟩
  all_goals
    have hothers : ∀ depth < s.outer.length, s.outer.length ≠ depth := fun _ h => Nat.ne_of_gt h
    unfold ShownState Shown
    rw [hlen, hlog, hshow]
    refine ⟨?_, shown_cons (fun depth hdepth => by simp [seen.of_context, hothers depth hdepth]) houter⟩
    cases hwants : s.tracer.wants_status with
    | true => simp [unanswered, seen.of_context]
    | false =>
      rw [unanswered_cons_of_not (by simp [seen.of_context])]
      exact hcurrent

/-- What the other steps do. -/
theorem ptrace_step_cases (hstep : ptrace_step tid s e = some s') :
    (∃ mode, e = .host mode ∧ host_step tid s mode = some s') ∨
    (∀ mode, e ≠ .host mode) ∧
      (s'.outer = s.outer ∧ s'.log = s.log ∧
          s'.current.is_syscall_entry_show = s.current.is_syscall_entry_show ∨
        (∃ m, s'.current.is_syscall_entry_show = m ∧ s'.outer = s.current :: s.outer ∧
          s'.log = .memory (s.outer.length + 1) m :: s.log) ∨
        ∃ prev, s.outer = prev :: s'.outer ∧ s'.log = s.log ∧
          s'.current.is_syscall_entry_show = prev.is_syscall_entry_show) := by
  cases e with
  | host mode => exact .inl ⟨mode, rfl, hstep⟩
  | stop stop mode =>
    refine .inr ⟨fun _ => (by rintro ⟨⟩), .inl ?_⟩
    simp only [ptrace_step] at hstep
    split_ifs at hstep with hother
    obtain ⟨r, hturn, rfl⟩ := Option.map_eq_some_iff.1 hstep
    exact ⟨rfl, rfl, wait4_turn_other _ hother hturn⟩
  | signal m =>
    obtain rfl := Option.some.inj hstep
    exact .inr ⟨fun _ => (by rintro ⟨⟩), .inr (.inl ⟨m, rfl, rfl, rfl⟩)⟩
  | returns =>
    refine .inr ⟨fun _ => (by rintro ⟨⟩), .inr (.inr ?_)⟩
    simp only [ptrace_step] at hstep
    split at hstep
    · rename_i prev rest hphase houter
      obtain rfl := Option.some.inj hstep
      exact ⟨prev, houter, rfl, rfl⟩
    · cases hstep
  | leaves =>
    refine .inr ⟨fun _ => (by rintro ⟨⟩), .inr (.inr ?_)⟩
    simp only [ptrace_step] at hstep
    split at hstep
    · rename_i prev rest hphase houter
      obtain rfl := Option.some.inj hstep
      exact ⟨prev, houter, rfl, rfl⟩
    · cases hstep

theorem ptrace_step_shown (hs : ShownState s) (hstep : ptrace_step tid s e = some s') :
    ShownState s' := by
  obtain ⟨mode, rfl, hhost⟩ | ⟨-, ⟨houter, hlog, hshow⟩ | ⟨m, hshow, houter, hlog⟩ |
    ⟨prev, houter, hlog, hshow⟩⟩ := ptrace_step_cases hstep
  · exact host_step_shown hs hhost
  · unfold ShownState Shown
    rw [houter, hlog, hshow]
    exact hs
  · unfold ShownState Shown
    rw [houter, hlog, hshow]
    refine ⟨by simp [unanswered, seen.of_context], shown_cons ?_ hs⟩
    intro depth hdepth
    have hne : s.outer.length + 1 ≠ depth := Nat.ne_of_gt hdepth
    simp [seen.of_context, hne]
  · obtain ⟨-, hs⟩ := hs
    rw [houter] at hs
    unfold ShownState Shown
    rw [hlog, hshow]
    exact hs

/-- Only an end of a host call adds an exit to the log. -/
theorem paired_of_not_host (hpaired : Paired s) (hhost : ∀ mode, e ≠ .host mode)
    (hstep : ptrace_step tid s e = some s') : Paired s' := by
  have hmem : ∀ r, (∀ depth m, r ≠ seen.memory depth m) → (r ∈ s'.log ↔ r ∈ s.log) := by
    intro r hr
    obtain ⟨mode, rfl, -⟩ | ⟨-, ⟨-, hlog, -⟩ | ⟨m, -, -, hlog⟩ | ⟨prev, -, hlog, -⟩⟩ :=
      ptrace_step_cases hstep
    · exact absurd rfl (hhost mode)
    · rw [hlog]
    · rw [hlog, List.mem_cons]
      exact ⟨fun h => h.resolve_left (hr _ _), .inr⟩
    · rw [hlog]
  intro depth call wants_status hexit
  obtain ⟨depth', wants_status', hentry⟩ := hpaired depth call wants_status
    ((hmem _ (by rintro _ _ ⟨⟩)).1 hexit)
  exact ⟨depth', wants_status', (hmem _ (by rintro _ _ ⟨⟩)).2 hentry⟩

/-- An end of a host call keeps the pairs when its exit, if it is given, has an entry. -/
theorem host_step_paired_iff (hs : ShownState s) (hpaired : Paired s)
    (hstep : host_step tid s mode = some s') : Paired s' ↔ KeepsPairs s (.host mode) := by
  obtain ⟨-, ⟨hphase, hlog, -⟩ | ⟨hphase, hlog, -⟩ | ⟨call, hphase, hlistens, hlog, -⟩⟩ :=
    host_step_cases hstep
  · have hkeeps : KeepsPairs s (.host mode) := fun call hcall hlistens =>
      absurd hcall (hphase hlistens call)
    refine iff_of_true ?_ hkeeps
    unfold Paired
    rw [hlog]
    exact hpaired
  · have hkeeps : KeepsPairs s (.host mode) := by
      intro call hcall
      rw [hphase] at hcall
      cases hcall
    refine iff_of_true ?_ hkeeps
    intro depth call wants_status hexit
    rw [hlog, List.mem_cons] at hexit
    obtain ⟨depth', wants_status', hentry⟩ := hpaired depth call wants_status
      (hexit.resolve_left (by rintro ⟨⟩))
    exact ⟨depth', wants_status', hlog ▸ List.mem_cons_of_mem _ hentry⟩
  · have hentries : ∀ call, (∃ depth wants_status, seen.entry depth call wants_status ∈ s'.log) ↔
        ∃ depth wants_status, seen.entry depth call wants_status ∈ s.log := by
      intro call
      simp [hlog]
    constructor
    · intro hpaired' call' hcall' _
      obtain rfl : call = call' := by
        rw [hphase] at hcall'
        exact call_phase.exiting.inj hcall'
      rw [← hentries]
      by_cases hgiven : (!s.tracer.wants_status || s.current.is_syscall_entry_show ≠ 0) = true
      · left
        apply hpaired' s.outer.length call s.tracer.wants_status
        rw [hlog, hgiven]
        exact List.mem_cons_self
      · right
        simp only [Bool.or_eq_true, not_or, Bool.not_eq_true', Bool.not_eq_false,
          decide_eq_true_eq] at hgiven
        refine ⟨hgiven.1, ?_⟩
        rw [← Bool.not_eq_true]
        exact fun h => hgiven.2 (hs.1.2 h)
    · intro hkeeps depth call' wants_status hexit
      rw [hentries]
      rw [hlog, List.mem_cons] at hexit
      obtain hexit | hexit := hexit
      · -- this exit
        injection hexit with _ hcall _ hgiven
        subst hcall
        obtain hentry | ⟨hwants, hanswered⟩ := hkeeps call' hphase hlistens
        · exact hentry
        · have hshow : ¬ s.current.is_syscall_entry_show ≠ 0 := by
            intro h
            rw [hs.1.1 h] at hanswered
            cases hanswered
          simp [hwants, hshow] at hgiven
      · exact hpaired depth call' wants_status hexit

theorem ptrace_step_paired_iff (hs : ShownState s) (hpaired : Paired s)
    (hstep : ptrace_step tid s e = some s') : Paired s' ↔ KeepsPairs s e := by
  cases e with
  | host mode => exact host_step_paired_iff hs hpaired hstep
  | stop stop mode => exact iff_of_true (paired_of_not_host hpaired (by rintro _ ⟨⟩) hstep) trivial
  | signal m => exact iff_of_true (paired_of_not_host hpaired (by rintro _ ⟨⟩) hstep) trivial
  | returns => exact iff_of_true (paired_of_not_host hpaired (by rintro _ ⟨⟩) hstep) trivial
  | leaves => exact iff_of_true (paired_of_not_host hpaired (by rintro _ ⟨⟩) hstep) trivial

/-- What every run whose steps keep the pairs comes to. -/
structure PairedState (s : ptrace_state) : Prop where
  shown : ShownState s
  paired : Paired s

theorem run_paired {m : Nat} (hreach : (ptrace_runs tid m).Reach KeepsPairs s) : PairedState s := by
  refine hreach.invariant ?_ ?_
  · refine ⟨⟨by simp [ptrace_runs, unanswered, seen.of_context], trivial⟩, ?_⟩
    intro depth call wants_status hexit
    simp [ptrace_runs] at hexit
  · intro s e s' hs hkeeps hstep
    exact ⟨ptrace_step_shown hs.shown hstep,
      (ptrace_step_paired_iff hs.shown hs.paired hstep).2 hkeeps⟩

end pairs

/-- In a run in which the tracer listens at the exit of a system call only when it was given
    the entry, or else no entry in that context is unanswered, an exit is given only after the
    entry of the same system call. The first step that is not so gives an exit without one. -/
theorem syscall_stops_paired (tid : Fin (2 ^ 22)) (m : Nat) (s : ptrace_state)
    (hreach : (ptrace_runs tid m).Reach KeepsPairs s) :
    Paired s ∧ ∀ e s', (ptrace_runs tid m).exec s e = some s' → (Paired s' ↔ KeepsPairs s e) := by
  have hs := run_paired hreach
  refine ⟨hs.paired, ?_⟩
  intro e s' hstep
  exact ptrace_step_paired_iff hs.shown hs.paired hstep

/-- The tracee stops itself with SIGSTOP. -/
def sigstop : host_stop := ⟨19 * 2 ^ 8 + 0x7f, 0, ⟨0, 0, 0, 0, 0⟩⟩

def listening : tracer_mode := ⟨true, false, true⟩

def not_listening : tracer_mode := ⟨false, false, true⟩

/-- A system call that the tracer follows from its entry to its exit. -/
theorem syscall_stops_paired_at_followed_call :
    ∃ s, (ptrace_runs 5 0).Reach KeepsPairs s ∧ seen.exit 0 0 true true ∈ s.log ∧ Paired s := by
  have hreach : (ptrace_runs 5 0).Reach KeepsPairs _ :=
    .step (.step (.step (.step (.step .init
      (l := .stop sigstop listening) trivial rfl)
      (l := .host listening) (by rintro _ ⟨⟩) rfl)
      (l := .host listening) (by rintro _ ⟨⟩) rfl)
      (l := .host listening) (by rintro _ ⟨⟩) rfl)
      (l := .host listening) (by rintro _ ⟨⟩ _; exact .inl ⟨0, true, List.mem_cons_self⟩) rfl
  exact ⟨_, hreach, List.mem_cons_self, (syscall_stops_paired 5 0 _ hreach).1⟩

/-- The tracer is given the entry of the first system call and then does not listen until it is
    given a stop inside the second. It is given the exit of that one. -/
theorem exit_without_entry :
    ¬ ∀ (tid : Fin (2 ^ 22)) (s : ptrace_state),
      (ptrace_runs tid 0).Reach (fun _ e => ∀ m, e ≠ .signal m) s → Paired s := by
  intro h
  have hreach : (ptrace_runs 5 0).Reach (fun _ e => ∀ m, e ≠ .signal m) _ :=
    .step (.step (.step (.step (.step (.step (.step (.step (.step (.step .init
      (l := .stop sigstop listening) (by rintro _ ⟨⟩) rfl)
      (l := .host not_listening) (by rintro _ ⟨⟩) rfl)
      (l := .host not_listening) (by rintro _ ⟨⟩) rfl)
      (l := .host not_listening) (by rintro _ ⟨⟩) rfl)
      (l := .host not_listening) (by rintro _ ⟨⟩) rfl)
      (l := .host not_listening) (by rintro _ ⟨⟩) rfl)
      (l := .host not_listening) (by rintro _ ⟨⟩) rfl)
      (l := .stop sigstop listening) (by rintro _ ⟨⟩) rfl)
      (l := .host listening) (by rintro _ ⟨⟩) rfl)
      (l := .host listening) (by rintro _ ⟨⟩) rfl
  obtain ⟨depth, wants_status, hentry⟩ := h 5 _ hreach 0 1 true List.mem_cons_self
  have hlog : seen.entry depth 1 wants_status ∈
      [seen.exit 0 1 true true, .entry 0 0 true, .memory 0 0] := hentry
  simp at hlog

end Umeq.Ptrace
