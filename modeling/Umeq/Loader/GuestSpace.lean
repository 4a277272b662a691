import Umeq.Memory.Brk
import Umeq.Loader.Load

/-! # The address space of the guest, as the loaders use it

    The loaders map with `mmap_guest` and `MAP_FIXED`, unmap with `munmap_guest`, and write zeros
    through host pointers. Here these are the calls of `mmap_common.c` on its list, together with
    the bytes of the guest and with what may be written.

    A page that the emulator takes for its descriptors holds no bytes of the guest: what is
    in it is left out. So is `collect_ongoing_unmap`, the first thing that both calls do after
    their own work: files are loaded before there is a thread that could leave a stack behind.

    * `guest_space`: the space that a loader runs in.
    * `granted`: the host carries out a call for a range.
    * `internal_mmap_granted`, `internal_mmap_refused` and the same for `munmap`: one request.
-/

namespace Umeq.Loader

open Memory (world answer layout internal_mmap internal_munmap allocate_more_desc_memory_if_needed
  PAGE_ALIGN_UP range_args typeAt Ordered Retypes)

/-! ## State -/

/-- The memory of the guest, and the host's answers to the calls to come. -/
structure guest_memory where
  world : world
  byte : Nat → UInt8
  /-- The pages that may be written. -/
  writable : Nat → Bool
  answers : Nat → answer
  /-- The numbers of errors, as `is_syscall_error` takes them. -/
  errno_range : ∀ n errno, answers n = .refuses errno → 0 < errno ∧ errno < PAGE_SIZE

/-- The byte that a mapping has at a distance from its start. -/
def source_byte (source : Option (List UInt8 × Nat)) (i : Nat) : UInt8 :=
  match source with
  | none => 0
  | some (f, offset) => f.getD (offset + i) 0

/-- After a call, with its answer and the one of the call that may follow for descriptors. -/
def guest_memory.after (m : guest_memory) (w : Memory.world) : guest_memory where
  world := w
  byte := m.byte
  writable := m.writable
  answers := fun n => m.answers (n + 2)
  errno_range := fun n => m.errno_range (n + 2)

/-- A new mapping at `addr`: its part of the file, and zeros up to the end of the last page. -/
def guest_memory.filled (m : guest_memory) (addr : Nat) (q : mmap_request) : guest_memory :=
  let last := addr + PAGE_ALIGN_UP q.length
  { m with
    byte := fun x => if addr ≤ x ∧ x < last then source_byte q.source (x - addr) else m.byte x
    writable := fun p =>
      if addr ≤ p * PAGE_SIZE ∧ p * PAGE_SIZE < last then q.prot.PROT_WRITE else m.writable p }

/-- A byte can be written. -/
def guest_memory.can_write (m : guest_memory) (x : Nat) : Prop :=
  m.world.host.mapped (x / PAGE_SIZE) ∧ m.writable (x / PAGE_SIZE) = true

instance (m : guest_memory) (x : Nat) : Decidable (m.can_write x) :=
  inferInstanceAs (Decidable (_ ∧ _))

/-! ## Calls -/

section calls

variable (L : layout) (bits : Nat)

/-- A result as a `guest_ptr`. -/
def guest_ptr : Except Nat Nat → Nat
  | .ok r => r % 2 ^ bits
  | .error errno => (2 ^ bits - errno) % 2 ^ bits

/-- `mmap_guest`, where no unmap is under way. -/
def mmap_guest (m : guest_memory) (q : mmap_request) : Option (guest_memory × Nat) := do
  let (w, res) ← internal_mmap L m.world q.addr q.length q.prot.PROT_EXEC true (m.answers 0)
  let w ← allocate_more_desc_memory_if_needed L w (m.answers 1)
  match res with
  | .ok r => return ((m.after w).filled r q, guest_ptr bits res)
  | .error _ => return (m.after w, guest_ptr bits res)

/-- `munmap_guest`, where no unmap is under way. The loaders do not read its result. -/
def munmap_guest (m : guest_memory) (addr length : Nat) : Option guest_memory := do
  let (w, _) ← internal_munmap m.world addr length (m.answers 0)
  let w ← allocate_more_desc_memory_if_needed L w (m.answers 1)
  return m.after w

/-- Writes zeros from `a` up to `b`. A byte that cannot be written is a fault. -/
def clear_bytes (m : guest_memory) (a b : Nat) : Option guest_memory :=
  if ∀ i, i < b - a → m.can_write (a + i) then
    some { m with byte := fun x => if a ≤ x ∧ x < b then 0 else m.byte x }
  else none

def guest_space : space guest_memory where
  mmap_guest := mmap_guest L bits
  munmap_guest := munmap_guest L
  clear := clear_bytes

end calls

/-! ## One request -/

section requests

variable {L : layout} {w w' : world} {a : answer} {addr length : Nat} {prot_exec : Bool}
  {res : Except Nat Nat}

/-- The host carries out a call for a range. -/
def granted (a : answer) (addr length : Nat) : Prop := a = .accepts ∧ range_args addr length

instance (a : answer) (addr length : Nat) : Decidable (granted a addr length) :=
  inferInstanceAs (Decidable (_ ∧ _))

theorem range_granted {h : Memory.host} {b : Option Memory.backing} {ret : Nat}
    (hg : granted a addr length) :
    Memory.range_syscall h a addr length b ret =
      (h.fill addr (addr + PAGE_ALIGN_UP length) b, .ok ret) := by
  unfold Memory.range_syscall
  rw [hg.1]
  exact if_pos hg.2

theorem range_refused (h : Memory.host) (b : Option Memory.backing) (ret : Nat)
    (hg : ¬ granted a addr length) :
    ∃ errno, Memory.range_syscall h a addr length b ret = (h, .error errno) ∧
      (a = .refuses errno ∨ errno = Memory.EINVAL) := by
  unfold Memory.range_syscall
  cases a with
  | refuses errno => exact ⟨errno, rfl, .inl rfl⟩
  | accepts => exact ⟨_, if_neg fun hargs => hg ⟨rfl, hargs⟩, .inr rfl⟩

/-- The end of a range that is granted. -/
theorem range_end (h : range_args addr length) :
    PAGE_ALIGN_UP (Memory.add64 addr length) = addr + PAGE_ALIGN_UP length := by
  obtain ⟨hal, -, hlim⟩ := h
  exact Memory.PAGE_ALIGN_UP_add hal (by omega) (by omega)

theorem internal_mmap_granted (h0 : addr ≠ 0) (hg : granted a addr length)
    (h : internal_mmap L w addr length prot_exec true a = some (w', res)) :
    res = .ok addr ∧
      w'.host = w.host.fill addr (addr + PAGE_ALIGN_UP length) (some .other) ∧
      w.vm.insert addr (addr + PAGE_ALIGN_UP length) .VMA_MAP = some w'.vm := by
  unfold internal_mmap Memory.mmap_syscall at h
  rw [if_pos ⟨h0, rfl⟩, range_granted hg] at h
  dsimp only at h
  rw [range_end hg.2] at h
  obtain ⟨vm, hins, h⟩ := Option.bind_eq_some_iff.mp h
  cases h
  exact ⟨rfl, rfl, hins⟩

theorem internal_mmap_refused (h0 : addr ≠ 0) (hg : ¬ granted a addr length)
    (h : internal_mmap L w addr length prot_exec true a = some (w', res)) :
    w' = w ∧ ∃ errno, res = .error errno ∧ (a = .refuses errno ∨ errno = Memory.EINVAL) := by
  obtain ⟨errno, hsys, herrno⟩ :=
    range_refused w.host (some .other) addr hg
  unfold internal_mmap Memory.mmap_syscall at h
  rw [if_pos ⟨h0, rfl⟩, hsys] at h
  cases h
  exact ⟨rfl, errno, rfl, herrno⟩

theorem internal_munmap_granted (hg : granted a addr length)
    (h : internal_munmap w addr length a = some (w', res)) :
    w'.host = w.host.fill addr (addr + PAGE_ALIGN_UP length) none ∧
      w.vm.insert addr (addr + PAGE_ALIGN_UP length) .VMA_UNMAP = some w'.vm := by
  unfold internal_munmap Memory.munmap at h
  rw [range_granted hg] at h
  dsimp only at h
  rw [range_end hg.2] at h
  obtain ⟨vm, hins, h⟩ := Option.bind_eq_some_iff.mp h
  cases h
  exact ⟨rfl, hins⟩

theorem internal_munmap_refused (hg : ¬ granted a addr length)
    (h : internal_munmap w addr length a = some (w', res)) : w' = w := by
  obtain ⟨errno, hsys, -⟩ := range_refused w.host none 0 hg
  unfold internal_munmap Memory.munmap at h
  rw [hsys] at h
  cases h
  rfl

end requests

end Umeq.Loader
