import Umeq.Lib.Bytes
import Umeq.Lib.Runs
import Mathlib.Logic.Function.Basic

/-! # `rt_sigaction` of the arm and arm64 targets

    The host gets a wrapper as handler, and what the guest has asked for is kept in
    two tables. A call writes the old handler to the guest, updates the tables,
    asks the host, and then writes the rest of the old action.

    The two targets differ in the size of a word. The answer of the host is an
    input. The table `asked` is a ghost: what the last successful call for each
    signal has asked for.
-/

namespace Umeq.Signal

open Bytes

/-! ## The call -/

/-- `NSIG` of the host. -/
def NSIG : Int := 65

def EINVAL : Int := 22

def EFAULT : Int := 14

def SA_SIGINFO : Nat := 4

def SA_RESTORER : Nat := 0x04000000

/-- The target: the size of a guest word, which is also that of a field of the guest's
    `struct sigaction`. -/
structure abi where
  word : Nat

def arm64 : abi := ⟨8⟩

def arm : abi := ⟨4⟩

/-- The fields of the guest's `struct sigaction` at an address. -/
def abi.sa_handler (_ : abi) (p : Nat) : Nat := p

def abi.sa_flags (t : abi) (p : Nat) : Nat := p + t.word

def abi.sa_restorer (t : abi) (p : Nat) : Nat := p + 2 * t.word

def abi.sa_mask (t : abi) (p : Nat) : Nat := p + 3 * t.word

/-- `SIG_ERR`, `SIG_DFL` and `SIG_IGN`, which the host handles itself. -/
def abi.is_special (t : abi) (handler : Nat) : Bool :=
  handler = 256 ^ t.word - 1 || handler = 0 || handler = 1

/-- The handlers that the host gets. -/
inductive host_handler where
  | special (handler : Nat)
  | wrap_signal_sigaction
  | wrap_signal_handler
  deriving DecidableEq, Repr

/-- `struct kernel_sigaction`; the restorer is `wrap_signal_restorer` or null. -/
structure kernel_sigaction where
  k_sa_handler : host_handler
  sa_flags : Nat
  has_restorer : Bool
  sa_mask : Nat
  deriving DecidableEq, Repr

/-- The registers of the call. -/
structure sigaction_args where
  signum : Nat
  act : Nat
  oldact : Nat
  sigset_size : Nat

/-- What the host answers: the result, and the old mask when it succeeds. -/
structure host_answer where
  res : Int
  mask : Nat

structure signals where
  guest_signals_handler : Int → Nat
  sa_flags : Int → Nat
  mem : Mem
  /-- What the host was asked for last: the signal, the action and the set size. -/
  host : Option (Int × Option kernel_sigaction × Nat)
  asked : Int → Nat × Nat

/-- The cast to `int` of a register. -/
def to_int (r : Nat) : Int := (BitVec.ofNat 32 r).toInt

/-- The action that the guest gives, for the host. -/
def translate (t : abi) (m : Mem) (act : Nat) : kernel_sigaction :=
  let handler := m.load (t.sa_handler act) t.word
  let flags := m.load (t.sa_flags act) t.word
  let mask := m.load (t.sa_mask act) t.word
  if t.is_special handler then ⟨.special handler, 0, false, mask⟩
  else
    ⟨if flags &&& SA_SIGINFO ≠ 0 then .wrap_signal_sigaction else .wrap_signal_handler,
      flags ||| SA_RESTORER ||| SA_SIGINFO, true, mask⟩

/-- The arguments that are refused at once. -/
def refused (t : abi) (a : sigaction_args) : Option Int :=
  if to_int a.signum < 1 ∨ to_int a.signum ≥ NSIG then some (-EINVAL)
  else if a.act = 256 ^ t.word - 1 ∨ a.oldact = 256 ^ t.word - 1 then some (-EFAULT)
  else none

/-- The old handler is written before the new action is read. -/
def write_old_handler (t : abi) (s : signals) (a : sigaction_args) : Mem :=
  if a.oldact ≠ 0 then
    s.mem.store (t.sa_handler a.oldact) t.word (s.guest_signals_handler (to_int a.signum))
  else s.mem

/-- The tables after the new action has been read from `m`. -/
def set_tables (t : abi) (s : signals) (m : Mem) (a : sigaction_args) : signals :=
  if a.act ≠ 0 then
    { s with
      guest_signals_handler := Function.update s.guest_signals_handler (to_int a.signum)
        (m.load (t.sa_handler a.act) t.word)
      sa_flags := Function.update s.sa_flags (to_int a.signum) (m.load (t.sa_flags a.act) t.word) }
  else s

/-- The rest of the old action, once the host has answered. -/
def write_old_rest (t : abi) (flags : Nat) (m : Mem) (a : sigaction_args) (h : host_answer) : Mem :=
  if a.oldact ≠ 0 then
    let m := m.store (t.sa_flags a.oldact) t.word flags
    let m := m.store (t.sa_mask a.oldact) t.word (if h.res = 0 then h.mask else 0)
    m.store (t.sa_restorer a.oldact) t.word 0
  else m

/-- The ghost: what a successful call has asked for. -/
def note_asked (t : abi) (s : signals) (a : sigaction_args) (res : Int) : Int → Nat × Nat :=
  if res = 0 ∧ a.act ≠ 0 then
    Function.update s.asked (to_int a.signum)
      (s.mem.load (t.sa_handler a.act) t.word, s.mem.load (t.sa_flags a.act) t.word)
  else s.asked

/-- `arm64_rt_sigaction` and `arm_rt_sigaction`: the state after the call and its
    result. -/
def rt_sigaction (t : abi) (s : signals) (a : sigaction_args) (h : host_answer) : signals × Int :=
  match refused t a with
  | some res => (s, res)
  | none =>
    let m := write_old_handler t s a
    let s' := set_tables t s m a
    ({ s' with
      mem := write_old_rest t (s'.sa_flags (to_int a.signum)) m a h
      host := some (to_int a.signum, if a.act ≠ 0 then some (translate t s.mem a.act) else none,
        a.sigset_size)
      asked := note_asked t s a h.res }, h.res)

def arm64_rt_sigaction : signals → sigaction_args → host_answer → signals × Int := rt_sigaction arm64

def arm_rt_sigaction : signals → sigaction_args → host_answer → signals × Int := rt_sigaction arm

/-! ## Runs -/

/-- A call, or a write of the guest to its memory. -/
inductive sigaction_event where
  | call (a : sigaction_args) (h : host_answer)
  | write (address : Nat) (bytes : List UInt8)

/-- The tables are static, so they start with zeros. -/
def sigaction_runs (t : abi) (m : Mem) : Runs.System signals sigaction_event where
  init := ⟨fun _ => 0, fun _ => 0, m, none, fun _ => (0, 0)⟩
  exec := fun s e => match e with
    | .call a h => some (rt_sigaction t s a h).1
    | .write address bytes => some { s with mem := s.mem.write address bytes }

/-! ## The table of the kernel -/

/-- What a kernel does. A successful call with an old action stores there what the last
    successful call for the signal has asked for, and a failed one leaves the tables. -/
def KernelLike (t : abi) (s : signals) (a : sigaction_args) (h : host_answer) : Prop :=
  let (s', res) := rt_sigaction t s a h
  (res = 0 → a.oldact ≠ 0 →
    (s'.mem.load (t.sa_handler a.oldact) t.word, s'.mem.load (t.sa_flags a.oldact) t.word) =
      s.asked (to_int a.signum)) ∧
  (res ≠ 0 → s'.guest_signals_handler = s.guest_signals_handler ∧ s'.sa_flags = s.sa_flags)

/-- The action that the guest gives, and as the call reads it, after it has written the
    old handler. -/
def given (t : abi) (m : Mem) (a : sigaction_args) : Nat × Nat :=
  (m.load (t.sa_handler a.act) t.word, m.load (t.sa_flags a.act) t.word)

/-- What is stored for the signal of a call. -/
def signals.stored (s : signals) (a : sigaction_args) : Nat × Nat :=
  (s.guest_signals_handler (to_int a.signum), s.sa_flags (to_int a.signum))

/-- The calls that the code handles well: nothing new is asked for when the host
    refuses, nor new flags when the old action is asked for; and the old action does
    not overwrite a new one before that is read. -/
def keeps_table (t : abi) (s : signals) (a : sigaction_args) (h : host_answer) : Prop :=
  refused t a = none → a.act ≠ 0 →
    (h.res ≠ 0 → given t (write_old_handler t s a) a = s.stored a) ∧
    (h.res = 0 → given t (write_old_handler t s a) a = given t s.mem a) ∧
    (h.res = 0 → a.oldact ≠ 0 → (given t (write_old_handler t s a) a).2 = (s.stored a).2)

/-- The tables hold what was asked for. -/
structure InTables (t : abi) (s : signals) : Prop where
  asked : ∀ n, s.asked n = (s.guest_signals_handler n, s.sa_flags n)
  handler_lt : ∀ n, s.guest_signals_handler n < 256 ^ t.word
  flags_lt : ∀ n, s.sa_flags n < 256 ^ t.word

section calls

variable {t : abi} {s : signals} {a : sigaction_args} {h : host_answer}

theorem set_tables_null (hact : a.act = 0) (m : Mem) : set_tables t s m a = s := by
  unfold set_tables
  rw [if_neg (by simpa using hact)]

/-- The tables for the signal of the call and for the others. -/
theorem set_tables_given (hact : a.act ≠ 0) (m : Mem) :
    (set_tables t s m a).stored a = given t m a ∧
    ∀ n, n ≠ to_int a.signum → (set_tables t s m a).guest_signals_handler n = s.guest_signals_handler n ∧
      (set_tables t s m a).sa_flags n = s.sa_flags n := by
  unfold set_tables
  rw [if_pos hact]
  refine ⟨by simp [signals.stored, given], ?_⟩
  intro n hn
  simp [Function.update_of_ne hn]

/-- A call that asks for what is stored leaves the tables. -/
theorem set_tables_same {m : Mem} (hsame : given t m a = s.stored a) :
    (set_tables t s m a).guest_signals_handler = s.guest_signals_handler ∧
      (set_tables t s m a).sa_flags = s.sa_flags := by
  by_cases hact : a.act = 0
  · rw [set_tables_null hact]
    exact ⟨rfl, rfl⟩
  · obtain ⟨hstored, hother⟩ := set_tables_given (t := t) (s := s) hact m
    rw [hsame] at hstored
    obtain ⟨hh, hf⟩ := Prod.mk.inj hstored
    refine ⟨funext fun n => ?_, funext fun n => ?_⟩
    · by_cases hn : n = to_int a.signum
      · rw [hn, hh]
      · exact (hother n hn).1
    · by_cases hn : n = to_int a.signum
      · rw [hn, hf]
      · exact (hother n hn).2

theorem set_tables_lt (hs : InTables t s) (m : Mem) (n : Int) :
    (set_tables t s m a).guest_signals_handler n < 256 ^ t.word ∧
      (set_tables t s m a).sa_flags n < 256 ^ t.word := by
  unfold set_tables
  split_ifs
  · by_cases hn : n = to_int a.signum
    · subst hn
      simp only [Function.update_self]
      exact ⟨m.load_lt _ _, m.load_lt _ _⟩
    · simp only [Function.update_of_ne hn]
      exact ⟨hs.handler_lt n, hs.flags_lt n⟩
  · exact ⟨hs.handler_lt n, hs.flags_lt n⟩

/-- What the guest finds in the old action. -/
theorem old_action {flags : Nat} (hs : InTables t s) (hflags : flags < 256 ^ t.word)
    (hold : a.oldact ≠ 0) (h : host_answer) :
    (write_old_rest t flags (write_old_handler t s a) a h).load (t.sa_handler a.oldact) t.word =
      s.guest_signals_handler (to_int a.signum) ∧
    (write_old_rest t flags (write_old_handler t s a) a h).load (t.sa_flags a.oldact) t.word =
      flags := by
  unfold write_old_rest write_old_handler
  simp only [if_pos hold, abi.sa_handler, abi.sa_flags, abi.sa_mask, abi.sa_restorer]
  refine ⟨?_, ?_⟩
  · rw [Mem.load_store_apart (by omega), Mem.load_store_apart (by omega),
      Mem.load_store_apart (by omega), Mem.load_store, Nat.mod_eq_of_lt (hs.handler_lt _)]
  · rw [Mem.load_store_apart (by omega), Mem.load_store_apart (by omega), Mem.load_store,
      Nat.mod_eq_of_lt hflags]

theorem rt_sigaction_refused {res : Int} (hr : refused t a = some res) :
    rt_sigaction t s a h = (s, res) ∧ res ≠ 0 := by
  refine ⟨by simp only [rt_sigaction, hr], ?_⟩
  unfold refused at hr
  split_ifs at hr
  · rw [← Option.some.inj hr]
    decide
  · rw [← Option.some.inj hr]
    decide

/-- A call that the code handles well is a call of the kernel. -/
theorem call_kernelLike (hs : InTables t s) (hok : keeps_table t s a h) : KernelLike t s a h := by
  unfold KernelLike
  cases hr : refused t a with
  | some res =>
    obtain ⟨hcall, hres⟩ := rt_sigaction_refused (s := s) (h := h) hr
    rw [hcall]
    exact ⟨fun h0 => absurd h0 hres, fun _ => ⟨rfl, rfl⟩⟩
  | none =>
    simp only [rt_sigaction, hr]
    refine ⟨?_, ?_⟩
    · intro h0 hold
      have hlt := (set_tables_lt (a := a) hs (write_old_handler t s a) (to_int a.signum)).2
      obtain ⟨hhandler, hflags⟩ := old_action hs hlt hold h
      rw [hhandler, hflags, hs.asked]
      refine Prod.ext rfl ?_
      by_cases hact : a.act = 0
      · rw [set_tables_null hact]
      · -- the flags reported are the new ones
        obtain ⟨-, -, hsame⟩ := hok hr hact
        have hstored := (set_tables_given (t := t) (s := s) hact (write_old_handler t s a)).1
        rw [← hstored] at hsame
        exact hsame h0 hold
    · intro hne
      by_cases hact : a.act = 0
      · rw [set_tables_null hact]
        exact ⟨rfl, rfl⟩
      · exact set_tables_same ((hok hr hact).1 hne)

/-- The tables after such a call. -/
theorem call_inTables (hs : InTables t s) (hok : keeps_table t s a h) :
    InTables t (rt_sigaction t s a h).1 := by
  cases hr : refused t a with
  | some res =>
    rw [(rt_sigaction_refused hr).1]
    exact hs
  | none =>
    simp only [rt_sigaction, hr]
    have hlt := set_tables_lt (a := a) hs (write_old_handler t s a)
    refine ⟨?_, fun n => (hlt n).1, fun n => (hlt n).2⟩
    intro n
    show note_asked t s a h.res n = _
    unfold note_asked
    by_cases hact : a.act = 0
    · rw [if_neg (by simp [hact]), set_tables_null hact]
      exact hs.asked n
    · obtain ⟨hfail, hread, -⟩ := hok hr hact
      obtain ⟨hstored, hother⟩ := set_tables_given (t := t) (s := s) hact (write_old_handler t s a)
      by_cases h0 : h.res = 0
      · rw [if_pos ⟨h0, hact⟩]
        by_cases hn : n = to_int a.signum
        · subst hn
          rw [Function.update_self]
          exact ((hread h0).symm.trans hstored.symm)
        · rw [Function.update_of_ne hn, (hother n hn).1, (hother n hn).2]
          exact hs.asked n
      · obtain ⟨hh, hf⟩ := set_tables_same (hfail h0)
        rw [if_neg (by simp [h0]), hs.asked n]
        simp only [hh, hf]

end calls

/-- The condition on an event of a run. -/
def run_keeps (t : abi) (s : signals) : sigaction_event → Prop
  | .call a h => keeps_table t s a h
  | .write _ _ => True

/-- In every run whose calls are handled well, for arm and arm64, each such call is one of
    the kernel. -/
theorem rt_sigaction_kernel {t : abi} {m : Mem} {s : signals}
    (hreach : (sigaction_runs t m).Reach (run_keeps t) s) (a : sigaction_args) (h : host_answer)
    (hok : keeps_table t s a h) : KernelLike t s a h := by
  refine call_kernelLike ?_ hok
  refine hreach.invariant ?_ ?_
  · have hpos : 0 < 256 ^ t.word := Nat.pow_pos (by decide)
    exact ⟨fun _ => rfl, fun _ => hpos, fun _ => hpos⟩
  · intro s e s' hs hok hexec
    cases e with
    | call a h =>
      obtain rfl := Option.some.inj hexec
      exact call_inTables hs hok
    | write address bytes =>
      obtain rfl := Option.some.inj hexec
      exact ⟨hs.asked, hs.handler_lt, hs.flags_lt⟩

/-- A guest action at 0x1000. -/
def one_action : Mem := Mem.store (Mem.store (fun _ => 0) 0x1000 8 0x8000) 0x1008 8 4

def host_ok : host_answer := ⟨0, 0⟩

def set_usr1 : sigaction_args := ⟨10, 0x1000, 0, 8⟩

def ask_usr1 : sigaction_args := ⟨10, 0, 0x2000, 8⟩

/-- The action set by one call is the old one for the next. -/
theorem set_then_asked : ∃ s, (sigaction_runs arm64 one_action).Reach (run_keeps arm64) s ∧
    s.asked 10 = (0x8000, 4) ∧ KernelLike arm64 s ask_usr1 host_ok := by
  have hset : keeps_table arm64 (sigaction_runs arm64 one_action).init set_usr1 host_ok :=
    fun _ _ => ⟨fun h => absurd rfl h, fun _ => rfl, fun _ h => absurd rfl h⟩
  obtain ⟨s, hs, hasked⟩ : ∃ s, (sigaction_runs arm64 one_action).Reach (run_keeps arm64) s ∧
      s.asked 10 = (0x8000, 4) := ⟨_, .step .init (l := .call set_usr1 host_ok) hset rfl, by decide⟩
  exact ⟨s, hs, hasked, rt_sigaction_kernel hs _ _ fun _ h => absurd rfl h⟩

/-- The first call for a signal, with a new action and an old one: the flags stored in
    the old action are those of the new one. -/
theorem first_call_new_flags :
    ¬ KernelLike arm64 (sigaction_runs arm64 one_action).init ⟨10, 0x1000, 0x2000, 8⟩ host_ok := by
  intro h
  have hold := h.1 rfl (by decide)
  exact absurd (congrArg Prod.snd hold) (by decide)

end Umeq.Signal
