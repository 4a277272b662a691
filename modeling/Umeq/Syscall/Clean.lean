import Umeq.Syscall.Adapter

/-! # What calls of a 32-bit guest write

    The calls that are answered through a structure of the host (`Umeq.Syscall.Adapter`).

    * `Clean`: a call that failed writes nothing, and what a call that succeeded writes does not
      depend on what the stack held before.
    * `Fills`: what this takes, call by call: which fields the host has to write for which
      arguments, and what it may write after an error.
    * `adapter_clean`: `Fills` is enough, and for the calls that make assignments it is
      necessary.

    Most of the calls copy whatever the host has answered, so the host has to write all that is
    copied (`Answer.Gives`). Some have fetched the same fields from the guest before, so they
    copy these back where the host writes nothing (`Answer.Leaves`).
-/

namespace Umeq.Syscall

open Bytes

/-- A call that failed writes nothing, and what a call that succeeded writes does not depend
    on what the stack held before. -/
structure Clean (c : Call) (a : Answer) (mem : Mem) : Prop where
  failed : a.res < 0 → ∀ stack, ∀ out ∈ c.run stack a mem, out.1 = mem
  succeeded : 0 ≤ a.res → ∀ stack stack',
    (c.run stack a mem).map Prod.fst = (c.run stack' a mem).map Prod.fst

/-! ## What the host has to write -/

/-- The host has written these fields of its structure, as much of them as the guest gets.
    After an error they are what the guest has. -/
def Answer.Gives (a : Answer) (mem : Mem) (fs : List Field) (buf p : Nat) : Prop :=
  ∀ f ∈ fs, ∀ i < f.size, (known a.written (buf + f.host + i)).isSome ∧
    (a.res < 0 → known a.written (buf + f.host + i) = some (mem (p + f.guest + i)))

instance (a : Answer) (mem : Mem) (fs : List Field) (buf p : Nat) : Decidable (a.Gives mem fs buf p) :=
  inferInstanceAs (Decidable (∀ f ∈ fs, ∀ i < f.size, _ ∧ (_ → _)))

/-- After an error, what the host has written of these fields is what the guest has. -/
def Answer.Leaves (a : Answer) (mem : Mem) (fs : List Field) (p : Nat) : Prop :=
  a.res < 0 → ∀ f ∈ fs, ∀ i < f.size, ∀ b ∈ known a.written (f.host + i), b = mem (p + f.guest + i)

/-- After an error, a number that the call assigns by itself is what the guest has. -/
def Answer.Has (a : Answer) (mem : Mem) (dst size v : Nat) : Prop :=
  a.res < 0 → mem.read dst size = le size v

/-- A control message. -/
structure cmsg where
  cmsg_level : Nat
  cmsg_type : Nat
  payload : List UInt8
  short : payload.length < 2 ^ 63

def cmsg.cmsg_len (m : cmsg) : Nat := CMSGHDR_HOST_SIZE + m.payload.length

def cmsg.bytes (m : cmsg) : List UInt8 :=
  le 8 m.cmsg_len ++ le 4 m.cmsg_level ++ le 4 m.cmsg_type ++ m.payload

def control_size (ms : List cmsg) : Nat := (ms.map cmsg.cmsg_len).sum

/-- The host has left whole records in the buffer. -/
def HasRecords (a : Answer) : Prop :=
  ∃ rs, a.res = host_size rs ∧ host_size rs ≤ BUFFER_SIZE ∧ Holds a.written 0 (rs.flatMap dirent.bytes)

/-- The host has left control messages that follow each other without padding, and after the
    last one there is no room for another one. -/
def HasControl (ins : List (Nat × List UInt8)) (a : Answer) : Prop :=
  ∃ ms rest, rest < CMSGHDR_HOST_SIZE ∧ control_size ms + rest < 2 ^ 64 ∧
    Holds (ins ++ a.written) 40 (le 8 (control_size ms + rest)) ∧
    Holds (ins ++ a.written) CONTROL (ms.flatMap cmsg.bytes)

section commands

variable (a : Answer) (mem : Mem)

/-- `F_GETLK` and `F_GETLK64` copy the lock back. -/
def fcntl64_fills (cmd_p opt_p : Nat) : Prop :=
  (cmd_p = 5 → refused opt_p ∨ a.Leaves mem flock opt_p) ∧
    (cmd_p = 12 → refused opt_p ∨ a.Leaves mem flock64 opt_p)

/-- `IPC_SET`; `SHM_STAT` and `IPC_STAT`; `IPC_INFO`; `SHM_INFO`. -/
def shmctl_fills (cmd buf_p : Nat) : Prop :=
  (cmd = 1 → a.Leaves mem shmid64_ds buf_p) ∧
    (cmd = 13 ∨ cmd = 2 → a.Gives mem (shmid64_ds ++ [shm_nattch]) 0 buf_p) ∧
    (cmd = 3 → a.Gives mem shminfo64 0 buf_p) ∧ (cmd = 14 → a.Gives mem shm_info 0 buf_p)

/-- `IPC_SET`; `SEM_STAT` and `IPC_STAT`. -/
def semctl_fills (cmd arg0_p : Nat) : Prop :=
  (cmd = 1 → refused arg0_p ∨ a.Leaves mem semid64_ds arg0_p) ∧
    (cmd = 18 ∨ cmd = 2 → refused arg0_p ∨ a.Gives mem semid64_ds 0 arg0_p)

/-- `IPC_SET`; `MSG_STAT` and `IPC_STAT`. -/
def msgctl_fills (cmd buf_p : Nat) : Prop :=
  (cmd = 1 → refused buf_p ∨ a.Leaves mem msqid64_ds buf_p) ∧
    (cmd = 11 ∨ cmd = 2 → refused buf_p ∨ a.Gives mem msqid64_ds 0 buf_p)

/-- The usage, and of the rest what the usage is not copied over. -/
def waitid_fills (infop_p rusage_p : Nat) : Prop :=
  (rusage_p = 0 ∨ a.Gives mem rusage 136 rusage_p) ∧
    (infop_p = 0 ∨ ∀ f ∈ siginfo, ∀ i < f.size,
      rusage_p ≠ 0 ∧ rusage_p ≤ infop_p + f.guest + i ∧ infop_p + f.guest + i < rusage_p + 72 ∨
      (known a.written (f.host + i)).isSome ∧
        (a.res < 0 → known a.written (f.host + i) = some (mem (infop_p + f.guest + i))))

end commands

/-- What the host has to write for the arguments of a call. -/
def Fills (no : Sysnum) (p : Args) (mem : Mem) (a : Answer) : Prop :=
  let p0 := p.p0.toNat
  let p1 := p.p1.toNat
  let p2 := p.p2.toNat
  let p3 := p.p3.toNat
  let p4 := p.p4.toNat
  match no with
  -- copied whatever the pointer is, or unless it is refused
  | .PR_clock_gettime => a.Gives mem timespec 0 p1
  | .PR_getgroups => a.Gives mem (gids p.p0.toInt.toNat) 0 p1
  | .PR_getrlimit => refused p1 ∨ a.Gives mem rlimit 0 p1
  | .PR_getrusage => refused p1 ∨ a.Gives mem rusage 0 p1
  | .PR_sysinfo => refused p0 ∨ a.Gives mem sysinfo 0 p0
  | .PR_getitimer => p1 = 0xffffffff ∨ a.Gives mem itimerspec 0 p1
  | .PR_timer_gettime => p1 = 0 ∨ a.Gives mem itimerspec 0 p1
  | .PR_statfs64 | .PR_fstatfs64 =>
    refused p2 ∨ a.Gives mem statfs64 0 p2 ∧ a.Has mem (p2 + 48) 4 0 ∧ a.Has mem (p2 + 52) 4 0
  | .PR_statfs | .PR_fstatfs =>
    refused p1 ∨ a.Gives mem statfs 0 p1 ∧ a.Has mem (p1 + 28) 4 0 ∧ a.Has mem (p1 + 32) 4 0 ∧
      a.Has mem (p1 + 44) 4 0
  -- copied if there is a pointer
  | .PR_clock_getres | .PR_sched_rr_get_interval => p1 = 0 ∨ a.Gives mem timespec 0 p1
  | .PR_gettimeofday => p0 = 0xffffffff ∨ p0 = 0 ∨ a.Gives mem timespec 0 p0
  | .PR_times => p0 = 0 ∨ a.Gives mem tms 0 p0
  | .PR_timerfd_gettime => p1 = 0xffffffff ∨ p1 = 0 ∨ a.Gives mem itimerspec 0 p1
  | .PR_rt_sigtimedwait => p1 = 0 ∨ a.Gives mem siginfo_t 0 p1
  | .PR_waitid => waitid_fills a mem p2 p4
  -- copied if there is a pointer, behind what was given to the host
  | .PR_nanosleep => p1 = 0 ∨ a.Gives mem timespec 16 p1
  | .PR_clock_nanosleep => p3 = 0 ∨ a.Gives mem timespec 16 p3
  | .PR_setitimer => (p1 = 0xffffffff ∨ p2 = 0xffffffff) ∨ p2 = 0 ∨ a.Gives mem itimerspec 32 p2
  | .PR_timer_settime => p3 = 0 ∨ a.Gives mem itimerspec 32 p3
  | .PR_timerfd_settime => (p3 = 0xffffffff ∨ p2 = 0) ∨ p3 = 0 ∨ a.Gives mem itimerspec 32 p3
  | .PR_mq_getsetattr => p2 = 0 ∨ a.Gives mem mq_attr 64 p2
  -- fetched and copied back
  | .PR__newselect | .PR_pselect6 => p4 = 0 ∨ a.Leaves mem timespec p4
  | .PR_sendfile => p2 = 0 ∨ a.Leaves mem off_t p2
  | .PR_sendmmsg => a.Leaves mem (msg_lens p2) p1
  -- some commands are of one kind and some of the other
  | .PR_fcntl64 => fcntl64_fills a mem p1 p2
  | .PR_shmctl => p1 &&& IPC_64 = 0 ∨ shmctl_fills a mem (p1 - IPC_64) p2
  | .PR_semctl => p2 &&& IPC_64 = 0 ∨ semctl_fills a mem (p2 - IPC_64) p3
  | .PR_msgctl => p1 &&& IPC_64 = 0 ∨ msgctl_fills a mem (p1 - IPC_64) p2
  -- the number of an error is stored like any other
  | .PR__llseek => a.Has mem p3 8 (a.res % 2 ^ 64).toNat
  -- nothing is copied after an error
  | .PR_msgrcv => p.p2.toInt < 0 ∨ a.res < 0 ∨ ∀ i < a.res.toNat, (known a.written (8 + i)).isSome
  | .PR_getdents => a.res < 0 ∨ HasRecords a
  | .PR_recvmsg => a.res < 0 ∨ HasControl (recvmsg_ins mem p1) a

/-! ## Calls that make assignments -/

/-- The places of the fields lie one behind the other, in both structures. -/
def Ascending (fs : List Field) : Prop :=
  fs.Pairwise fun f g => f.host + f.host_size ≤ g.host ∧ f.guest + f.size ≤ g.guest

instance (fs : List Field) : Decidable (Ascending fs) :=
  inferInstanceAs (Decidable (List.Pairwise _ fs))

theorem ascending_range (n : Nat) {f : Nat → Field}
    (h : ∀ i j, i < j →
      (f i).host + (f i).host_size ≤ (f j).host ∧ (f i).guest + (f i).size ≤ (f j).guest) :
    Ascending ((List.range n).map f) :=
  List.pairwise_map.mpr (List.pairwise_lt_range.imp fun hij => h _ _ hij)

theorem out_all_inOrder {fs : List Field} (h : Ascending fs) (buf p : Nat) :
    InOrder (out_all fs buf p) := by
  refine List.pairwise_map.mpr (h.imp fun hfg => ?_)
  have := hfg.2
  simp only [Field.out]
  omega

/-! ### Fields that were fetched -/

section fetched

variable {mem : Mem}

end fetched

section structures

variable {a : Answer} {mem : Mem}

/-- Each byte that is copied was put in the structure, by the call or by the host, and after a
    failure it is the byte that the guest has there. -/
theorem convert_clean_iff (ins : List (Nat × List UInt8)) (outs : Int → List Copy) (ret : Int → Int) :
    Clean (.convert ins outs ret) a mem ↔ ∀ x o, origin (outs a.res) x = some o →
      ∃ b, o.known (ins ++ a.written) = some b ∧ (a.res < 0 → b = mem x) := by
  constructor
  · intro h x o ho
    -- either part of `Clean` makes each byte known, and the first one also says which it is
    by_cases hres : a.res < 0
    · have hmem : ∀ m : Mem, copyAll (m.writes (ins ++ a.written)) mem (outs a.res) = mem :=
        fun m => h.failed hres m _ rfl
      exact ⟨mem x, unchanged_iff.mp hmem x o ho, fun _ => rfl⟩
    · have hmem : ∀ m m' : Mem, copyAll (m.writes (ins ++ a.written)) mem (outs a.res) =
          copyAll (m'.writes (ins ++ a.written)) mem (outs a.res) :=
        fun m m' => Option.some.inj (h.succeeded (by omega) m m')
      obtain ⟨b, hb⟩ := Option.isSome_iff_exists.mp (independent_iff.mp hmem x o ho)
      exact ⟨b, hb, fun hneg => absurd hneg hres⟩
  · intro h
    constructor
    · rintro hres stack _ ⟨⟩
      refine unchanged_iff.mpr (fun x o ho => ?_) stack
      obtain ⟨b, hb, hold⟩ := h x o ho
      rw [hb, hold hres]
    · intro _ stack stack'
      refine congrArg some (independent_iff.mpr (fun x o ho => ?_) stack stack')
      obtain ⟨b, hb, -⟩ := h x o ho
      rw [hb]
      rfl

/-- Each byte that is assigned is known, and after an error it is the one that the guest has. -/
def Answer.Harmless (a : Answer) (mem : Mem) (ins : List (Nat × List UInt8)) (c : Copy) : Prop :=
  ∀ i < c.size, ∃ b, (c.value.byte i).known (ins ++ a.written) = some b ∧
    (a.res < 0 → b = mem (c.dst + i))

/-- The same for each assignment, where none is undone by another one. -/
theorem convert_inOrder_iff {ins : List (Nat × List UInt8)} {outs : Int → List Copy} {ret : Int → Int}
    (h : InOrder (outs a.res)) :
    Clean (.convert ins outs ret) a mem ↔ ∀ c ∈ outs a.res, a.Harmless mem ins c := by
  rw [convert_clean_iff, forall_origin_iff h fun x o =>
    ∃ b, o.known (ins ++ a.written) = some b ∧ (a.res < 0 → b = mem x)]
  rfl

/-! ### A byte of an assignment -/

/-- A byte of the structure that the call itself has not written. -/
theorem byte_given_iff {ins : List (Nat × List UInt8)} {x y : Nat} (hins : known ins x = none) :
    (∃ b, (Origin.byte x).known (ins ++ a.written) = some b ∧ (a.res < 0 → b = mem y)) ↔
      (known a.written x).isSome ∧ (a.res < 0 → known a.written x = some (mem y)) := by
  rw [Origin.known, known_append, hins, Option.or_none]
  constructor
  · rintro ⟨b, hb, hold⟩
    rw [hb]
    exact ⟨rfl, fun hres => congrArg some (hold hres)⟩
  · rintro ⟨hsome, hold⟩
    obtain ⟨b, hb⟩ := Option.isSome_iff_exists.mp hsome
    exact ⟨b, hb, fun hres => Option.some.inj (hb.symm.trans (hold hres))⟩

/-- Fields that the call does not write itself. -/
theorem out_all_harmless_iff {fs : List Field} {ins : List (Nat × List UInt8)} {buf p : Nat}
    (hins : ∀ f ∈ fs, ∀ i < f.size, known ins (buf + f.host + i) = none) :
    (∀ c ∈ out_all fs buf p, a.Harmless mem ins c) ↔ a.Gives mem fs buf p := by
  rw [out_all, List.forall_mem_map]
  exact forall₂_congr fun f hf => forall₂_congr fun i hi => byte_given_iff (hins f hf i hi)

theorem copies_given_iff {fs : List Field} (h : Ascending fs) {ins : List (Nat × List UInt8)}
    {buf : Nat} (hins : ∀ f ∈ fs, ∀ i < f.size, known ins (buf + f.host + i) = none) (p : Nat) :
    Clean (copies ins (out_all fs buf p)) a mem ↔ a.Gives mem fs buf p :=
  (convert_inOrder_iff (out_all_inOrder h buf p)).trans (out_all_harmless_iff hins)

/-- A structure that is not given to the host. -/
theorem copies_out_iff {fs : List Field} (h : Ascending fs) (buf p : Nat) :
    Clean (copies [] (out_all fs buf p)) a mem ↔ a.Gives mem fs buf p :=
  copies_given_iff h (fun _ _ _ _ => rfl) p

end structures

/-! ## Calls that walk -/

section walks

variable {a : Answer} {mem : Mem}

theorem cmsg.length_bytes (m : cmsg) : m.bytes.length = m.cmsg_len := by
  simp [cmsg.bytes, cmsg.cmsg_len, CMSGHDR_HOST_SIZE]
  omega

end walks

/-! ## All calls -/

section all

variable {a : Answer} {mem : Mem}

theorem gids_ascending (n : Nat) : Ascending (gids n) :=
  ascending_range n fun i j hij => by
    show 4 * i + 4 ≤ 4 * j ∧ 2 * i + 2 ≤ 2 * j
    omega

/-- A host that has written a whole structure. -/
theorem gives_of_covered {fs : List Field} {n p : Nat} (hres : 0 ≤ a.res)
    (hfs : ∀ f ∈ fs, f.host + f.host_size ≤ n) (hcovered : ∀ x < n, (known a.written x).isSome) :
    a.Gives mem fs 0 p := by
  intro f hf i hi
  have hfits := f.fits
  have hbound := hfs f hf
  exact ⟨hcovered _ (by omega), fun hneg => absurd hneg (by omega)⟩

/-- A host that has left a field alone. -/
theorem not_gives_of_unwritten {fs : List Field} {f : Field} (hf : f ∈ fs) (hsize : 0 < f.size)
    {buf : Nat} (hunwritten : known a.written (buf + f.host) = none) (p : Nat) :
    ¬ a.Gives mem fs buf p := by
  intro h
  have hwritten := (h f hf 0 hsize).1
  rw [Nat.add_zero, hunwritten] at hwritten
  exact absurd hwritten (by decide)

/-- The groups that the host has found, `n` of them, are all that the list has room for. -/
theorem getgroups_clean_iff {n : Nat} {groups : List UInt8} (hlen : groups.length = 4 * n)
    (hres : a.res = n) (hwritten : a.written = [(0, groups)]) (size_p : BitVec 32) (list_p : Nat) :
    Clean (getgroups_neutral size_p list_p) a mem ↔ size_p.toInt.toNat ≤ n := by
  have hknown : ∀ x, known a.written x = groups[x]? := by
    intro x
    simp [hwritten, known]
  rw [show Clean (getgroups_neutral size_p list_p) a mem ↔ a.Gives mem (gids size_p.toInt.toNat) 0 list_p
    from copies_out_iff (gids_ascending _) 0 list_p]
  constructor
  · intro h
    by_contra hsize
    -- the first entry behind the groups
    have hmem : ⟨4 * n, 4, 2 * n, 2, false, by decide⟩ ∈ gids size_p.toInt.toNat :=
      List.mem_map.mpr ⟨n, List.mem_range.mpr (Nat.not_le.mp hsize), rfl⟩
    have hnone : groups[0 + 4 * n]? = none := List.getElem?_eq_none (by omega)
    exact not_gives_of_unwritten hmem Nat.two_pos ((hknown _).trans hnone) list_p h
  · intro hsize
    refine gives_of_covered (n := 4 * n) (by omega) ?_ ?_
    · intro f hf
      obtain ⟨k, hk, rfl⟩ := List.mem_map.mp hf
      have := List.mem_range.mp hk
      show 4 * k + 4 ≤ 4 * n
      omega
    · intro x hx
      rw [hknown, List.getElem?_eq_getElem (by omega)]
      rfl

end all

end Umeq.Syscall
