import Umeq.Lib.Bytes
import Umeq.Lib.Runs
import Mathlib.Logic.Function.Basic
import Mathlib.Data.Fin.Basic

/-! # The exclusive accesses of `arm64_helpers.c`

    `LDXR`, `LDXP`, `STXR`, `STXP` and `CLREX` of one thread, one atomic memory access
    at a time, with the writes of the other threads in between. The monitor is the
    value that the last load has seen: a store compares the memory with it.

    A pair of 64-bit registers is loaded and stored in two accesses. The barriers
    of the acquire and release forms order accesses that are in order here anyway,
    so those forms are the plain ones.

    The log of the stores, with what they have found and left, is a ghost, and so
    are the marks that tell which load a store is paired with.
-/

namespace Umeq.Arm64

open Bytes

/-! ## Instructions -/

/-- The instructions, with the fields of their encodings. -/
inductive exclusive where
  | ldxr (size : Fin 4) (rn rt : Fin 32)
  | ldxp (size : Fin 4) (rn rt rt2 : Fin 32)
  | stxr (size : Fin 4) (rs rn rt : Fin 32)
  | stxp (size : Fin 4) (rs rn rt rt2 : Fin 32)
  | clrex
  deriving DecidableEq

/-- The part of `struct arm64_target` that the helpers use. -/
structure arm64_target where
  r : Fin 32 → BitVec 64
  exclusive_value : BitVec 128

/-- `read_x` with `ZERO_REG`. -/
def arm64_target.read_x (c : arm64_target) (r : Fin 32) : BitVec 64 := if r = 31 then 0 else c.r r

/-- `write_x` with `ZERO_REG`. -/
def arm64_target.write_x (c : arm64_target) (r : Fin 32) (v : BitVec 64) : arm64_target :=
  if r = 31 then c else { c with r := Function.update c.r r v }

/-- A place in memory: its address and its size in bytes. -/
structure cell where
  address : Nat
  size : Nat
  deriving DecidableEq

/-- The two words of a pair of 64-bit registers. -/
def pair_cells (address : BitVec 64) : List cell :=
  [⟨address.toNat, 8⟩, ⟨(address + 8).toNat, 8⟩]

/-- `__sync_bool_compare_and_swap`. -/
def compare_and_swap (m : Mem) (c : cell) (oldval newval : Nat) : Mem × Bool :=
  if m.load c.address c.size = oldval % 256 ^ c.size then (m.store c.address c.size newval, true)
  else (m, false)

/-! ## Stores in progress and stores done -/

/-- A write of another thread. -/
abbrev foreign : Type := Nat × List UInt8

def apply_writes (m : Mem) (ws : List foreign) : Mem := ws.foldl (fun m w => m.write w.1 w.2) m

/-- A store-exclusive: what it accesses, what it stores there, the values of the load
    it is paired with, whether a load has been done since the last `CLREX`, the
    memory it has found, and the writes of other threads since then. -/
structure attempt where
  cells : List cell
  values : List Nat
  paired : Option (List Nat)
  armed : Bool
  before : Mem
  writes : List foreign

/-- A store-exclusive that has reported its status. -/
structure store_event extends attempt where
  failed : Bool
  after : Mem

/-- A helper between its two accesses. -/
inductive pending where
  | ldxp (address : BitVec 64) (rt rt2 : Fin 32) (low : Nat)
  | stxp (address : BitVec 64) (rs rt rt2 : Fin 32) (a : attempt)

structure monitor_state where
  mem : Mem
  context : arm64_target
  pending : Option pending
  /-- What the last load has accessed and returned, until a store or a `CLREX`. -/
  loaded : Option (List cell × List Nat)
  armed : Bool
  log : List store_event

/-- The values of the paired load, for a store to these cells. -/
def monitor_state.paired (s : monitor_state) (cells : List cell) : Option (List Nat) :=
  match s.loaded with
  | some (cells', values) => if cells' = cells then some values else none
  | none => none

def monitor_state.start (s : monitor_state) (cells : List cell) (values : List Nat) : attempt :=
  ⟨cells, values, s.paired cells, s.armed, s.mem, []⟩

/-- A load has seen these values. -/
def monitor_state.load_done (s : monitor_state) (c : arm64_target) (cells : List cell)
    (values : List Nat) : monitor_state :=
  { s with context := c, pending := none, loaded := some (cells, values), armed := true }

/-- A store has reported its status to a context. -/
def monitor_state.store_done (s : monitor_state) (m : Mem) (c : arm64_target) (a : attempt)
    (failed : Bool) : monitor_state :=
  { s with
    mem := m
    context := c
    pending := none
    loaded := none
    log := s.log ++ [⟨a, failed, m⟩] }

/-- The status register: 0 for a store that was done. -/
def status (ok : Bool) : BitVec 64 := if ok then 0 else 1

/-! ## The helpers -/

/-- `arm64_hlp_ldxr`, called by `dis_load_exclusive`. -/
def arm64_hlp_ldxr (s : monitor_state) (size : Fin 4) (rn rt : Fin 32) : monitor_state :=
  let c : cell := ⟨(s.context.r rn).toNat, 2 ^ size.val⟩
  let v := s.mem.load c.address c.size
  s.load_done ({ s.context with exclusive_value := BitVec.ofNat 128 v }.write_x rt (BitVec.ofNat 64 v))
    [c] [v]

/-- `arm64_hlp_ldxp_dirty`; of a pair of 64-bit registers only the first word. -/
def arm64_hlp_ldxp_dirty (s : monitor_state) (size : Fin 4) (rn rt rt2 : Fin 32) :
    Option monitor_state :=
  let address := s.context.r rn
  if size = 3 then
    some { s with pending := some (.ldxp address rt rt2 (s.mem.load address.toNat 8)) }
  else if size = 2 then
    let v := s.mem.load address.toNat 8
    let c := { s.context with exclusive_value := BitVec.ofNat 128 v }
    let c := c.write_x rt (BitVec.ofNat 64 (v % 2 ^ 32))
    let c := c.write_x rt2 (BitVec.ofNat 64 (v / 2 ^ 32))
    some (s.load_done c [⟨address.toNat, 8⟩] [v])
  else none

/-- The second word of a load of a pair. -/
def ldxp_high (s : monitor_state) (address : BitVec 64) (rt rt2 : Fin 32) (low : Nat) :
    monitor_state :=
  let high := s.mem.load (address + 8).toNat 8
  let c := { s.context with exclusive_value := BitVec.ofNat 128 (low + 2 ^ 64 * high) }
  let c := c.write_x rt (BitVec.ofNat 64 low)
  let c := c.write_x rt2 (BitVec.ofNat 64 high)
  s.load_done c (pair_cells address) [low, high]

/-- A store of one word, with `rs` written by `write`. -/
def store_word (s : monitor_state) (c : cell) (value : Nat)
    (write : arm64_target → BitVec 64 → arm64_target) : monitor_state :=
  let (m, ok) := compare_and_swap s.mem c s.context.exclusive_value.toNat value
  s.store_done m (write s.context (status ok)) (s.start [c] [value]) (!ok)

/-- `regs->r[rs] = res`. -/
def set_status (rs : Fin 32) (c : arm64_target) (res : BitVec 64) : arm64_target :=
  { c with r := Function.update c.r rs res }

/-- `arm64_hlp_stxr`, called by `dis_store_exclusive`. -/
def arm64_hlp_stxr (s : monitor_state) (size : Fin 4) (rs rn rt : Fin 32) : monitor_state :=
  store_word s ⟨(s.context.r rn).toNat, 2 ^ size.val⟩ (s.context.read_x rt).toNat
    fun c res => c.write_x rs res

/-- The first swap of a store of a pair. -/
def stxp_low (s : monitor_state) (address : BitVec 64) (rs rt rt2 : Fin 32) : monitor_state :=
  let a := s.start (pair_cells address) [(s.context.r rt).toNat, (s.context.r rt2).toNat]
  let (m, ok) := compare_and_swap s.mem ⟨address.toNat, 8⟩ s.context.exclusive_value.toNat
    (s.context.r rt).toNat
  if ok then { s with mem := m, pending := some (.stxp address rs rt rt2 a) }
  else s.store_done m (set_status rs s.context 1) a true

/-- `arm64_hlp_stxp_dirty`; of a pair of 64-bit registers only the first swap. -/
def arm64_hlp_stxp_dirty (s : monitor_state) (size : Fin 4) (rs rn rt rt2 : Fin 32) :
    Option monitor_state :=
  let address := s.context.r rn
  -- FIXME: read 0 register here
  if rt = 31 ∨ rt2 = 31 then none
  else if size = 3 then some (stxp_low s address rs rt rt2)
  else if size = 2 then
    let value := (s.context.r rt2).toNat % 2 ^ 32 * 2 ^ 32 + (s.context.r rt).toNat % 2 ^ 32
    some (store_word s ⟨address.toNat, 8⟩ value (set_status rs))
  else none

/-- The second swap of a store of a pair. When it fails, the first one is left and its
    value is remembered. -/
def stxp_high (s : monitor_state) (address : BitVec 64) (rs rt rt2 : Fin 32) (a : attempt) :
    monitor_state :=
  let excl := s.context.exclusive_value.toNat
  let (m, ok) := compare_and_swap s.mem ⟨(address + 8).toNat, 8⟩ (excl / 2 ^ 64)
    (s.context.r rt2).toNat
  let c := if ok then s.context else { s.context with
    exclusive_value := BitVec.ofNat 128 (excl / 2 ^ 64 * 2 ^ 64 + (s.context.r rt).toNat) }
  s.store_done m (set_status rs c (status ok)) a (!ok)

/-- `arm64_hlp_clrex`. -/
def arm64_hlp_clrex (s : monitor_state) : monitor_state :=
  { s with
    context := { s.context with exclusive_value := ~~~ ~~~ s.context.exclusive_value }
    loaded := none
    armed := false }

/-! ## Runs -/

/-- What happens next: a write to memory by another thread or by another instruction, a
    change of registers by other instructions, or an access of an exclusive one. -/
inductive access where
  | write (w : foreign)
  | registers (r : Fin 32 → BitVec 64)
  | insn (i : exclusive)
  | resume

def pending.note (w : foreign) : pending → pending
  | .stxp address rs rt rt2 a => .stxp address rs rt rt2 { a with writes := a.writes ++ [w] }
  | p => p

def exclusive.exec (s : monitor_state) : exclusive → Option monitor_state
  | .ldxr size rn rt => some (arm64_hlp_ldxr s size rn rt)
  | .ldxp size rn rt rt2 => arm64_hlp_ldxp_dirty s size rn rt rt2
  | .stxr size rs rn rt => some (arm64_hlp_stxr s size rs rn rt)
  | .stxp size rs rn rt rt2 => arm64_hlp_stxp_dirty s size rs rn rt rt2
  | .clrex => some (arm64_hlp_clrex s)

def access.exec (s : monitor_state) : access → Option monitor_state
  | .write w => some { s with mem := s.mem.write w.1 w.2, pending := s.pending.map (pending.note w) }
  | .registers r =>
    if s.pending.isNone then some { s with context := { s.context with r := r } } else none
  | .insn i => if s.pending.isNone then i.exec s else none
  | .resume =>
    match s.pending with
    | some (.ldxp address rt rt2 low) => some (ldxp_high s address rt rt2 low)
    | some (.stxp address rs rt rt2 a) => some (stxp_high s address rs rt rt2 a)
    | none => none

/-- A thread that starts with any registers, any memory and any value left in its
    context. -/
def monitor_runs (m : Mem) (c : arm64_target) : Runs.System monitor_state access where
  init := ⟨m, c, none, none, false, []⟩
  exec := access.exec

/-- A whole helper: with the writes `ws` of other threads between the two accesses of a pair. -/
def exclusive.finish (i : exclusive) (ws : List foreign) (s : monitor_state) : Option monitor_state :=
  match i.exec s with
  | none => none
  | some s =>
    if s.pending.isNone then some s
    else (ws.foldlM (fun s w => access.exec s (.write w)) s).bind fun s => access.exec s .resume

/-- The registers that an instruction writes. -/
def exclusive.destinations : exclusive → List (Fin 32)
  | .ldxr _ _ rt => [rt]
  | .ldxp _ _ rt rt2 => [rt, rt2]
  | .stxr _ rs _ _ => [rs]
  | .stxp _ rs _ _ _ => [rs]
  | .clrex => []

/-- The helper ends, with the registers changed only where a destination field other than 31 says
    so. A helper that has refused its sources has not used zero for them. -/
def ZeroRegister (i : exclusive) (ws : List foreign) (s : monitor_state) : Prop :=
  ∃ s', i.finish ws s = some s' ∧
    ∀ r, r ∉ i.destinations ∨ r = 31 → s'.context.r r = s.context.r r

/-! ## All or nothing -/

def read_cells (m : Mem) (cells : List cell) : List Nat := cells.map fun c => m.load c.address c.size

def store_cells (m : Mem) (cells : List cell) (values : List Nat) : Mem :=
  (cells.zip values).foldl (fun m p => m.store p.1.address p.1.size p.2) m

/-- A store that fails does nothing to the memory. One that succeeds does all of its work
    at one moment between the writes of the others, and finds there what the load it
    is paired with has returned. -/
def store_event.AllOrNothing (e : store_event) : Prop :=
  if e.failed then e.after = apply_writes e.before e.writes
  else ∃ earlier later, e.writes = earlier ++ later ∧
    (∀ values, e.paired = some values →
      read_cells (apply_writes e.before earlier) e.cells = values) ∧
    e.after = apply_writes (store_cells (apply_writes e.before earlier) e.cells e.values) later

/-- The write does not touch the cell. -/
def foreign.apart (w : foreign) (c : cell) : Prop :=
  w.1 + w.2.length ≤ c.address ∨ c.address + c.size ≤ w.1

/-- The accesses that keep a store of a pair whole. When its first swap finds the low
    word that is remembered, the high word is the remembered one too; and nobody
    writes to the pair between its two swaps. -/
def keeps_pair (s : monitor_state) : access → Prop
  | .insn (.stxp size _ rn _ _) =>
    let excl := s.context.exclusive_value.toNat
    size = 3 → s.mem.load (s.context.r rn).toNat 8 = excl % 2 ^ 64 →
      s.mem.load (s.context.r rn + 8).toNat 8 = excl / 2 ^ 64
  | .write w =>
    ∀ address rs rt rt2 a, s.pending = some (.stxp address rs rt rt2 a) →
      ∀ c ∈ pair_cells address, w.apart c
  | _ => True

/-- The values that the remembered one stands for. -/
def recalled (excl : Nat) : List cell → List Nat
  | [] => []
  | c :: cells => excl % 256 ^ c.size :: recalled (excl / 2 ^ 64) cells

/-- A store of a pair between its two swaps: what was found was remembered, and the
    first word has been written before the writes of the others. -/
structure Halfway (s : monitor_state) (address : BitVec 64) (rt rt2 : Fin 32) (a : attempt) :
    Prop where
  cells : a.cells = pair_cells address
  values : a.values = [(s.context.r rt).toNat, (s.context.r rt2).toNat]
  paired : ∀ values, a.paired = some values → read_cells a.before a.cells = values
  high : a.before.load (address + 8).toNat 8 = s.context.exclusive_value.toNat / 2 ^ 64
  apart : ∀ w ∈ a.writes, ∀ c ∈ pair_cells address, foreign.apart w c
  mem : s.mem = apply_writes (a.before.store address.toNat 8 (s.context.r rt).toNat) a.writes

structure Whole (s : monitor_state) : Prop where
  loaded : ∀ cells values, s.loaded = some (cells, values) →
    values = recalled s.context.exclusive_value.toNat cells
  low : ∀ address rt rt2 low, s.pending = some (.ldxp address rt rt2 low) → low < 2 ^ 64
  pending : ∀ address rs rt rt2 a, s.pending = some (.stxp address rs rt rt2 a) →
    Halfway s address rt rt2 a
  log : ∀ e ∈ s.log, e.AllOrNothing

section lemmas

variable {s s' : monitor_state}

/-- The two words of a pair do not overlap. -/
theorem pair_apart (address : BitVec 64) : address.toNat + 8 ≤ (address + 8).toNat ∨
    (address + 8).toNat + 8 ≤ address.toNat := by
  have hlt := address.isLt
  rw [BitVec.toNat_add, show (8 : BitVec 64).toNat = 8 from rfl]
  omega

theorem apply_writes_append (m : Mem) (ws : List foreign) (w : foreign) :
    apply_writes m (ws ++ [w]) = (apply_writes m ws).write w.1 w.2 := by
  simp [apply_writes]

theorem load_apply_writes {m : Mem} {ws : List foreign} {c : cell} (h : ∀ w ∈ ws, foreign.apart w c) :
    (apply_writes m ws).load c.address c.size = m.load c.address c.size := by
  induction ws generalizing m with
  | nil => rfl
  | cons w ws ih =>
    show (apply_writes (m.write w.1 w.2) ws).load _ _ = _
    rw [ih fun w' hw' => h w' (List.mem_cons_of_mem _ hw')]
    have hw := h w (by simp)
    unfold foreign.apart at hw
    rw [Mem.load, Mem.read_write_apart (by omega), Mem.load]

theorem store_apply_writes {m : Mem} {ws : List foreign} {c : cell} {v : Nat}
    (h : ∀ w ∈ ws, foreign.apart w c) : (apply_writes m ws).store c.address c.size v =
      apply_writes (m.store c.address c.size v) ws := by
  induction ws generalizing m with
  | nil => rfl
  | cons w ws ih =>
    show (apply_writes (m.write w.1 w.2) ws).store _ _ _ = _
    rw [ih fun w' hw' => h w' (List.mem_cons_of_mem _ hw')]
    have hw := h w (by simp)
    unfold foreign.apart at hw
    show apply_writes ((m.write w.1 w.2).write c.address (le c.size v)) ws = _
    rw [Mem.write_comm (by simpa using hw)]
    rfl

/-- What a store is paired with is what is remembered. -/
theorem Whole.paired (h : Whole s) {cells : List cell} {values : List Nat}
    (hp : s.paired cells = some values) :
    values = recalled s.context.exclusive_value.toNat cells := by
  unfold monitor_state.paired at hp
  cases hl : s.loaded with
  | none => simp [hl] at hp
  | some l =>
    simp only [hl] at hp
    split_ifs at hp with hc
    obtain rfl := Option.some.inj hp
    rw [h.loaded l.1 l.2 hl, hc]

theorem Whole.load_done (h : Whole s) {c : arm64_target} {cells : List cell} {values : List Nat}
    (hv : values = recalled c.exclusive_value.toNat cells) : Whole (s.load_done c cells values) := by
  refine ⟨?_, ?_, ?_, h.log⟩
  · intro cells' values' hl
    obtain ⟨rfl, rfl⟩ := Prod.mk.inj (Option.some.inj hl)
    exact hv
  · intro address rt rt2 low hp
    cases hp
  · intro address rs rt rt2 a hp
    cases hp

theorem Whole.store_done (h : Whole s) {m : Mem} {c : arm64_target} {a : attempt} {failed : Bool}
    (he : store_event.AllOrNothing ⟨a, failed, m⟩) : Whole (s.store_done m c a failed) := by
  refine ⟨?_, ?_, ?_, ?_⟩
  · intro cells values hl
    cases hl
  · intro address rt rt2 low hp
    cases hp
  · intro address rs rt rt2 a hp
    cases hp
  · intro e hmem
    rcases List.mem_append.mp hmem with hmem | hmem
    · exact h.log e hmem
    · rw [List.mem_singleton.mp hmem]
      exact he

theorem write_x_exclusive (c : arm64_target) (r : Fin 32) (v : BitVec 64) :
    (c.write_x r v).exclusive_value = c.exclusive_value := by
  unfold arm64_target.write_x
  split_ifs <;> rfl

/-- The value of one word is remembered whole. -/
theorem recalled_word (m : Mem) (c : cell) (hc : c.size ≤ 8) :
    [m.load c.address c.size] =
      recalled (BitVec.ofNat 128 (m.load c.address c.size)).toNat [c] := by
  have hlt := m.load_lt c.address c.size
  have hpow : 256 ^ c.size ≤ 256 ^ 8 := Nat.pow_le_pow_right (by decide) hc
  have h128 : m.load c.address c.size < 2 ^ 128 := by omega
  simp only [recalled, BitVec.toNat_ofNat, Nat.mod_eq_of_lt h128, Nat.mod_eq_of_lt hlt]

/-- A store of one word is one swap. -/
theorem store_word_whole (h : Whole s) (c : cell) (value : Nat)
    (write : arm64_target → BitVec 64 → arm64_target) : Whole (store_word s c value write) := by
  unfold store_word compare_and_swap
  split_ifs with hswap
  · refine h.store_done ?_
    refine ⟨[], [], rfl, ?_, rfl⟩
    intro values hp
    rw [h.paired hp]
    show [s.mem.load c.address c.size] = _
    rw [hswap]
    rfl
  · exact h.store_done rfl

theorem ldxp_high_whole (h : Whole s) {address : BitVec 64} {rt rt2 : Fin 32} {low : Nat}
    (hlow : low < 2 ^ 64) : Whole (ldxp_high s address rt rt2 low) := by
  unfold ldxp_high
  refine h.load_done ?_
  have hhigh := s.mem.load_lt (address + 8).toNat 8
  rw [write_x_exclusive, write_x_exclusive]
  simp only [BitVec.toNat_ofNat]
  rw [Nat.mod_eq_of_lt (by omega)]
  simp only [recalled, pair_cells]
  generalize s.mem.load (address + 8).toNat 8 = high at hhigh
  have h1 : (low + 2 ^ 64 * high) % 256 ^ 8 = low := by omega
  have h2 : (low + 2 ^ 64 * high) / 2 ^ 64 % 256 ^ 8 = high := by omega
  rw [h1, h2]

/-- The first swap of a store of a pair. -/
theorem stxp_low_whole (h : Whole s) {address : BitVec 64} {rs rt rt2 : Fin 32}
    (hok : s.mem.load address.toNat 8 = s.context.exclusive_value.toNat % 2 ^ 64 →
      s.mem.load (address + 8).toNat 8 = s.context.exclusive_value.toNat / 2 ^ 64) :
    Whole (stxp_low s address rs rt rt2) := by
  unfold stxp_low compare_and_swap
  by_cases hswap : s.mem.load address.toNat 8 = s.context.exclusive_value.toNat % 256 ^ 8
  · simp only [if_pos hswap, if_true]
    have hhigh := hok hswap
    refine ⟨h.loaded, fun _ _ _ _ hp => (by cases hp), ?_, h.log⟩
    intro address' rs' rt' rt2' a hp
    obtain ⟨rfl, rfl, rfl, rfl, rfl⟩ := pending.stxp.inj (Option.some.inj hp)
    refine ⟨rfl, rfl, ?_, hhigh, ?_, rfl⟩
    · intro values hpair
      rw [h.paired hpair]
      have hlt := s.context.exclusive_value.isLt
      show [s.mem.load _ 8, s.mem.load _ 8] = _
      rw [hswap, hhigh]
      simp only [pair_cells, recalled]
      rw [Nat.mod_eq_of_lt (show s.context.exclusive_value.toNat / 2 ^ 64 < 256 ^ 8 by omega)]
    · intro w hw
      cases hw
  · simp only [if_neg hswap, Bool.false_eq_true, if_false]
    exact h.store_done rfl

/-- The second swap of a store of a pair finds what it needs. -/
theorem stxp_high_whole (h : Whole s) {address : BitVec 64} {rs rt rt2 : Fin 32} {a : attempt}
    (hp : s.pending = some (.stxp address rs rt rt2 a)) :
    Whole (stxp_high s address rs rt rt2 a) := by
  have hw := h.pending address rs rt rt2 a hp
  have hlow : ∀ w ∈ a.writes, foreign.apart w ⟨address.toNat, 8⟩ :=
    fun w hmem => hw.apart w hmem _ (by simp [pair_cells])
  have hhigh : ∀ w ∈ a.writes, foreign.apart w ⟨(address + 8).toNat, 8⟩ :=
    fun w hmem => hw.apart w hmem _ (by simp [pair_cells])
  have hlt := s.context.exclusive_value.isLt
  have hswap : s.mem.load (address + 8).toNat 8 =
      s.context.exclusive_value.toNat / 2 ^ 64 % 256 ^ 8 := by
    have hpair := pair_apart address
    rw [hw.mem, load_apply_writes hhigh]
    show (a.before.store address.toNat 8 _).load (address + 8).toNat 8 = _
    rw [Mem.load_store_apart (by omega), hw.high]
    omega
  unfold stxp_high compare_and_swap
  simp only [if_pos hswap]
  refine h.store_done ?_
  -- the pair is stored before the writes of the others
  refine ⟨[], a.writes, rfl, ?_, ?_⟩
  · exact hw.paired
  · show s.mem.store _ _ _ = apply_writes (store_cells a.before a.cells a.values) a.writes
    rw [hw.mem, store_apply_writes hhigh, hw.cells, hw.values]
    rfl

theorem insn_whole {i : exclusive} (h : Whole s) (hok : keeps_pair s (.insn i))
    (hnone : s.pending = none) (hexec : i.exec s = some s') : Whole s' := by
  cases i with
  | ldxr size rn rt =>
    obtain rfl := Option.some.inj hexec
    refine h.load_done ?_
    rw [write_x_exclusive]
    refine recalled_word s.mem ⟨(s.context.r rn).toNat, 2 ^ size.val⟩ ?_
    show 2 ^ size.val ≤ 2 ^ 3
    exact Nat.pow_le_pow_right (by decide) (by omega)
  | ldxp size rn rt rt2 =>
    simp only [exclusive.exec, arm64_hlp_ldxp_dirty] at hexec
    split_ifs at hexec
    · obtain rfl := Option.some.inj hexec
      refine ⟨h.loaded, ?_, fun _ _ _ _ _ hp => (by cases hp), h.log⟩
      intro address rt rt2 low hp
      obtain ⟨-, -, -, rfl⟩ := pending.ldxp.inj (Option.some.inj hp)
      exact s.mem.load_lt _ 8
    · obtain rfl := Option.some.inj hexec
      refine h.load_done ?_
      rw [write_x_exclusive, write_x_exclusive]
      exact recalled_word s.mem ⟨(s.context.r rn).toNat, 8⟩ (Nat.le_refl 8)
  | stxr size rs rn rt =>
    obtain rfl := Option.some.inj hexec
    exact store_word_whole h _ _ _
  | stxp size rs rn rt rt2 =>
    simp only [exclusive.exec, arm64_hlp_stxp_dirty] at hexec
    split_ifs at hexec with hzero hsize
    · obtain rfl := Option.some.inj hexec
      exact stxp_low_whole h (hok hsize)
    · obtain rfl := Option.some.inj hexec
      exact store_word_whole h _ _ _
  | clrex =>
    obtain rfl := Option.some.inj hexec
    have hp : (arm64_hlp_clrex s).pending = none := hnone
    exact ⟨fun _ _ hl => (by cases hl), fun _ _ _ _ hl => (by rw [hp] at hl; cases hl),
      fun _ _ _ _ _ hl => (by rw [hp] at hl; cases hl), h.log⟩

/-- A write of another thread. -/
theorem write_whole {w : foreign} (h : Whole s) (hok : keeps_pair s (.write w)) :
    Whole { s with mem := s.mem.write w.1 w.2, pending := s.pending.map (pending.note w) } := by
  refine ⟨h.loaded, ?_, ?_, h.log⟩
  · intro address rt rt2 low hp
    obtain ⟨p, hp₀, hnote⟩ := Option.map_eq_some_iff.mp hp
    cases p with
    | ldxp =>
      obtain ⟨-, -, -, rfl⟩ := pending.ldxp.inj hnote
      exact h.low _ _ _ _ hp₀
    | stxp => cases hnote
  · intro address rs rt rt2 a hp
    obtain ⟨p, hp₀, hnote⟩ := Option.map_eq_some_iff.mp hp
    cases p with
    | ldxp => cases hnote
    | stxp address' rs' rt' rt2' a' =>
      obtain ⟨rfl, rfl, rfl, rfl, rfl⟩ := pending.stxp.inj hnote
      have hw := h.pending _ _ _ _ _ hp₀
      refine ⟨hw.cells, hw.values, hw.paired, hw.high, ?_, ?_⟩
      · intro w' hmem
        rcases List.mem_append.mp hmem with hmem | hmem
        · exact hw.apart w' hmem
        · rw [List.mem_singleton.mp hmem]
          exact hok _ _ _ _ _ hp₀
      · rw [apply_writes_append, ← hw.mem]

/-- One access. -/
theorem access_whole {l : access} (h : Whole s) (hok : keeps_pair s l)
    (hexec : l.exec s = some s') : Whole s' := by
  cases l with
  | write w =>
    obtain rfl := Option.some.inj hexec
    exact write_whole h hok
  | registers r =>
    simp only [access.exec] at hexec
    split_ifs at hexec with hnone
    obtain rfl := Option.some.inj hexec
    rw [Option.isNone_iff_eq_none] at hnone
    exact ⟨h.loaded, h.low, fun _ _ _ _ _ hl => (by rw [hnone] at hl; cases hl), h.log⟩
  | insn i =>
    simp only [access.exec] at hexec
    split_ifs at hexec with hnone
    exact insn_whole h hok (Option.isNone_iff_eq_none.mp hnone) hexec
  | resume =>
    simp only [access.exec] at hexec
    cases hp : s.pending with
    | none => simp [hp] at hexec
    | some p =>
      cases p with
      | ldxp address rt rt2 low =>
        simp only [hp, Option.some.injEq] at hexec
        subst hexec
        exact ldxp_high_whole h (h.low _ _ _ _ hp)
      | stxp address rs rt rt2 a =>
        simp only [hp, Option.some.injEq] at hexec
        subst hexec
        exact stxp_high_whole h hp

end lemmas

/-- In every run that keeps the pairs whole, the stores are all or nothing. -/
theorem store_exclusive_all_or_nothing {m : Mem} {c : arm64_target} {s : monitor_state}
    (h : (monitor_runs m c).Reach keeps_pair s) : ∀ e ∈ s.log, e.AllOrNothing := by
  have hwhole : Whole s := by
    refine h.invariant ?_ ?_
    · exact ⟨fun _ _ hl => (by cases hl), fun _ _ _ _ hl => (by cases hl),
        fun _ _ _ _ _ hl => (by cases hl), fun e he => absurd he List.not_mem_nil⟩
    · exact fun s l s' hs hok hexec => access_whole hs hok hexec
  exact hwhole.log

/-- Two words at 0x1000 hold 7 and 8. -/
def two_words : Mem := Mem.store (Mem.store (fun _ => 0) 0x1000 8 7) 0x1008 8 8

/-- `x0` is the address, `x1` and `x2` are what is stored. -/
def three_registers : arm64_target :=
  ⟨fun r => if r = 0 then 0x1000 else if r = 1 then 5 else if r = 2 then 6 else 0, 0⟩

/-- A pair is loaded, the two words are stored, and somebody writes elsewhere. -/
theorem store_pair_whole : ∃ s, (monitor_runs two_words three_registers).Reach keeps_pair s ∧
    s.log.map (fun e => (e.failed, read_cells e.after e.cells)) = [(false, [5, 6])] ∧
    ∀ e ∈ s.log, e.AllOrNothing := by
  obtain ⟨s, hs, hlog⟩ : ∃ s, (monitor_runs two_words three_registers).Reach keeps_pair s ∧
      s.log.map (fun e => (e.failed, read_cells e.after e.cells)) = [(false, [5, 6])] := by
    refine ⟨_, .step (.step (.step (.step (.step .init (l := .insn (.ldxp 3 0 3 4)) ?_ rfl)
      (l := .resume) ?_ rfl) (l := .insn (.stxp 3 5 0 1 2)) ?_ rfl)
      (l := .write (0x2000, [1])) ?_ rfl) (l := .resume) ?_ rfl, ?_⟩
    · trivial
    · trivial
    · exact fun _ _ => by decide
    · intro address rs rt rt2 a hp c hc
      obtain ⟨haddress, -⟩ := pending.stxp.inj (Option.some.inj hp)
      obtain rfl : (0x1000 : BitVec 64) = address := haddress
      simp only [pair_cells, List.mem_cons, List.not_mem_nil, or_false] at hc
      rcases hc with rfl | rfl
      · exact .inr (by decide)
      · exact .inr (by decide)
    · trivial
    · rfl
  exact ⟨s, hs, hlog, store_exclusive_all_or_nothing hs⟩

/-- Another thread changes the high word after the load. The store fails, and has
    stored the low word. -/
theorem store_pair_half_done : ∃ s,
    (monitor_runs two_words three_registers).Reach (fun _ _ => True) s ∧
    ∃ e ∈ s.log, e.failed = true ∧ ¬ e.AllOrNothing := by
  obtain ⟨s, hs, e, he, hfailed, hafter, hwrites⟩ : ∃ s,
      (monitor_runs two_words three_registers).Reach (fun _ _ => True) s ∧
      ∃ e ∈ s.log, e.failed = true ∧ e.after 0x1000 = 5 ∧
        apply_writes e.before e.writes 0x1000 = 7 :=
    ⟨_, .step (.step (.step (.step (.step .init (l := .insn (.ldxp 3 0 3 4)) trivial rfl)
      (l := .resume) trivial rfl) (l := .write (0x1008, [9])) trivial rfl)
      (l := .insn (.stxp 3 5 0 1 2)) trivial rfl) (l := .resume) trivial rfl, _, .head _, rfl, rfl,
      rfl⟩
  refine ⟨s, hs, e, he, hfailed, ?_⟩
  intro h
  unfold store_event.AllOrNothing at h
  rw [if_pos hfailed] at h
  rw [h, hwrites] at hafter
  exact absurd hafter (by decide)

/-! ## The monitor -/

/-- The store reports failure and does nothing to the memory. -/
def store_event.Refused (e : store_event) : Prop :=
  e.failed = true ∧ e.after = apply_writes e.before e.writes

/-- The word that a store compares first. -/
def exclusive.first_cell (c : arm64_target) : exclusive → Option cell
  | .stxr size _ rn _ => some ⟨(c.r rn).toNat, 2 ^ size.val⟩
  | .stxp _ _ rn _ _ => some ⟨(c.r rn).toNat, 8⟩
  | _ => none

/-- A store with no load since the last `CLREX` finds another value than the one that
    is still remembered. -/
def finds_other (s : monitor_state) : access → Prop
  | .insn i => s.armed = false → ∀ c, i.first_cell s.context = some c →
    s.mem.load c.address c.size ≠ s.context.exclusive_value.toNat % 256 ^ c.size
  | _ => True

structure Disciplined (s : monitor_state) : Prop where
  pending : ∀ address rs rt rt2 a, s.pending = some (.stxp address rs rt rt2 a) → a.armed = true
  log : ∀ e ∈ s.log, e.armed = false → e.Refused

section discipline

variable {s s' : monitor_state}

theorem Disciplined.load_done (h : Disciplined s) (c : arm64_target) (cells : List cell)
    (values : List Nat) : Disciplined (s.load_done c cells values) :=
  ⟨fun _ _ _ _ _ hp => (by cases hp), h.log⟩

theorem Disciplined.store_done (h : Disciplined s) {m : Mem} {c : arm64_target} {a : attempt}
    {failed : Bool} (he : a.armed = false → store_event.Refused ⟨a, failed, m⟩) :
    Disciplined (s.store_done m c a failed) := by
  refine ⟨fun _ _ _ _ _ hp => (by cases hp), ?_⟩
  intro e hmem
  rcases List.mem_append.mp hmem with hmem | hmem
  · exact h.log e hmem
  · rw [List.mem_singleton.mp hmem]
    exact he

theorem store_word_disciplined (h : Disciplined s) {c : cell} {value : Nat}
    {write : arm64_target → BitVec 64 → arm64_target} (hok : s.armed = false →
      s.mem.load c.address c.size ≠ s.context.exclusive_value.toNat % 256 ^ c.size) :
    Disciplined (store_word s c value write) := by
  unfold store_word compare_and_swap
  split_ifs with hswap
  · exact h.store_done fun harmed => absurd hswap (hok harmed)
  · exact h.store_done fun _ => ⟨rfl, rfl⟩

theorem stxp_low_disciplined (h : Disciplined s) {address : BitVec 64} {rs rt rt2 : Fin 32}
    (hok : s.armed = false →
      s.mem.load address.toNat 8 ≠ s.context.exclusive_value.toNat % 256 ^ 8) :
    Disciplined (stxp_low s address rs rt rt2) := by
  unfold stxp_low compare_and_swap
  by_cases hswap : s.mem.load address.toNat 8 = s.context.exclusive_value.toNat % 256 ^ 8
  · simp only [if_pos hswap, if_true]
    refine ⟨?_, h.log⟩
    intro address' rs' rt' rt2' a hp
    obtain ⟨-, -, -, -, rfl⟩ := pending.stxp.inj (Option.some.inj hp)
    -- without a load it would not have got this far
    show s.armed = true
    by_contra harmed
    exact hok (by simpa using harmed) hswap
  · simp only [if_neg hswap, Bool.false_eq_true, if_false]
    exact h.store_done fun _ => ⟨rfl, rfl⟩

theorem insn_disciplined {i : exclusive} (h : Disciplined s) (hok : finds_other s (.insn i))
    (hexec : i.exec s = some s') : Disciplined s' := by
  cases i with
  | ldxr size rn rt =>
    obtain rfl := Option.some.inj hexec
    exact h.load_done _ _ _
  | ldxp size rn rt rt2 =>
    simp only [exclusive.exec, arm64_hlp_ldxp_dirty] at hexec
    split_ifs at hexec
    · obtain rfl := Option.some.inj hexec
      exact ⟨fun _ _ _ _ _ hp => (by cases hp), h.log⟩
    · obtain rfl := Option.some.inj hexec
      exact h.load_done _ _ _
  | stxr size rs rn rt =>
    obtain rfl := Option.some.inj hexec
    exact store_word_disciplined h fun harmed =>
      hok harmed ⟨(s.context.r rn).toNat, 2 ^ size.val⟩ rfl
  | stxp size rs rn rt rt2 =>
    simp only [exclusive.exec, arm64_hlp_stxp_dirty] at hexec
    split_ifs at hexec
    · obtain rfl := Option.some.inj hexec
      exact stxp_low_disciplined h fun harmed => hok harmed ⟨(s.context.r rn).toNat, 8⟩ rfl
    · obtain rfl := Option.some.inj hexec
      exact store_word_disciplined h fun harmed => hok harmed ⟨(s.context.r rn).toNat, 8⟩ rfl
  | clrex =>
    obtain rfl := Option.some.inj hexec
    exact ⟨h.pending, h.log⟩

theorem stxp_high_done (s : monitor_state) (address : BitVec 64) (rs rt rt2 : Fin 32)
    (a : attempt) : ∃ m c failed, stxp_high s address rs rt rt2 a = s.store_done m c a failed := by
  unfold stxp_high
  dsimp only
  exact ⟨_, _, _, rfl⟩

/-- One access. -/
theorem access_disciplined {l : access} (h : Disciplined s) (hok : finds_other s l)
    (hexec : l.exec s = some s') : Disciplined s' := by
  cases l with
  | write w =>
    obtain rfl := Option.some.inj hexec
    refine ⟨?_, h.log⟩
    intro address rs rt rt2 a hp
    obtain ⟨p, hp₀, hnote⟩ := Option.map_eq_some_iff.mp hp
    cases p with
    | ldxp => cases hnote
    | stxp =>
      obtain ⟨-, -, -, -, rfl⟩ := pending.stxp.inj hnote
      have harmed := h.pending _ _ _ _ _ hp₀
      exact harmed
  | registers r =>
    simp only [access.exec] at hexec
    split_ifs at hexec
    obtain rfl := Option.some.inj hexec
    exact ⟨h.pending, h.log⟩
  | insn i =>
    simp only [access.exec] at hexec
    split_ifs at hexec
    exact insn_disciplined h hok hexec
  | resume =>
    simp only [access.exec] at hexec
    cases hp : s.pending with
    | none => simp [hp] at hexec
    | some p =>
      cases p with
      | ldxp address rt rt2 low =>
        simp only [hp, Option.some.injEq] at hexec
        subst hexec
        unfold ldxp_high
        exact h.load_done _ _ _
      | stxp address rs rt rt2 a =>
        simp only [hp, Option.some.injEq] at hexec
        subst hexec
        obtain ⟨m, c, failed, hdone⟩ := stxp_high_done s address rs rt rt2 a
        rw [hdone]
        refine h.store_done ?_
        intro hno
        rw [h.pending _ _ _ _ _ hp] at hno
        cases hno

end discipline

/-- In every run in which a store with no load since the last `CLREX` (or since the
    start) finds another value than the remembered one, such stores are refused. -/
theorem store_exclusive_disciplined {m : Mem} {c : arm64_target} {s : monitor_state}
    (h : (monitor_runs m c).Reach finds_other s) :
    ∀ e ∈ s.log, e.armed = false → e.Refused := by
  have hinit : Disciplined (monitor_runs m c).init :=
    ⟨fun _ _ _ _ _ hl => (by cases hl), fun e he => absurd he List.not_mem_nil⟩
  have hdisc : Disciplined s :=
    h.invariant hinit fun s l s' hs hok hexec => access_disciplined hs hok hexec
  exact hdisc.log

/-- A load, a `CLREX`, a write of another thread, and a store. -/
theorem store_after_write_refused : ∃ s,
    (monitor_runs two_words three_registers).Reach finds_other s ∧
    s.log.map (fun e => e.armed) = [false] ∧ ∀ e ∈ s.log, e.armed = false → e.Refused := by
  obtain ⟨s, hs, hlog⟩ : ∃ s, (monitor_runs two_words three_registers).Reach finds_other s ∧
      s.log.map (fun e => e.armed) = [false] := by
    refine ⟨_, .step (.step (.step (.step .init (l := .insn (.ldxr 3 0 3)) ?_ rfl)
      (l := .insn .clrex) ?_ rfl) (l := .write (0x1000, [9])) ?_ rfl)
      (l := .insn (.stxr 3 5 0 1)) ?_ rfl, ?_⟩
    · exact fun _ c hc => (by cases hc)
    · exact fun _ c hc => (by cases hc)
    · trivial
    · intro _ c hc
      obtain rfl := Option.some.inj hc
      decide
    · rfl
  exact ⟨s, hs, hlog, store_exclusive_disciplined hs⟩

/-- A load, a `CLREX` and a store. The store is done. -/
theorem store_after_clear_done : ∃ s,
    (monitor_runs two_words three_registers).Reach (fun _ _ => True) s ∧
    ∃ e ∈ s.log, e.armed = false ∧ ¬ e.Refused := by
  refine ⟨_, .step (.step (.step .init (l := .insn (.ldxr 3 0 3)) trivial rfl)
    (l := .insn .clrex) trivial rfl) (l := .insn (.stxr 3 5 0 1)) trivial rfl, _, .head _, rfl, ?_⟩
  intro h
  exact absurd h.1 (by decide)

end Umeq.Arm64
