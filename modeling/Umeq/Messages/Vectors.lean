import Mathlib.Data.List.Forall2
import Umeq.Messages.Control

/-! # Vectors of buffers

    Six calls of a 32-bit guest hand a vector of buffers to the host, and each of them rewrites it on
    the stack with a loop of its own (`guest32_to_neutral64_adapter.c`).

    * `exec`: what each call does up to the call of the host.
    * `has_room`: the arrays of `alloca` fit on the stack of the thread.
    * `translates`: the host gets the vectors of the guest, element by element.
    * `translatable`: the requests whose loops do that.

    `vmsplice` reads the first element in every round. `sendmsg` and `recvmsg` have room for 16
    elements, and assert that there are no more. No call limits what it takes with `alloca`.
-/

namespace Umeq.Messages

open Bytes (Mem)
open Umeq.Syscall (EINVAL recvmsg_compute_msg_controllen)

/-! ## Data -/

structure iovec_32 where
  iov_base : BitVec 32
  iov_len : BitVec 32
  deriving DecidableEq, Repr

structure iovec_64 where
  iov_base : BitVec 64
  iov_len : BitVec 64
  deriving DecidableEq, Repr

structure msghdr_32 where
  msg_name : BitVec 32
  msg_namelen : BitVec 32
  msg_iov : BitVec 32
  msg_iovlen : BitVec 32
  msg_control : BitVec 32
  msg_controllen : BitVec 32
  msg_flags : BitVec 32

/-- Where the control data of a message are. -/
inductive control_pointer where
  | null
  /-- On the stack of the emulator. -/
  | stack (bytes : List UInt8)
  /-- In the memory of the guest. -/
  | guest (addr : BitVec 64)

/-- The message for the host, with its vector in the place of a pointer to it. -/
structure msghdr_64 where
  msg_name : BitVec 64
  msg_namelen : BitVec 32
  msg_iov : List iovec_64
  msg_iovlen : Nat
  msg_control : control_pointer
  msg_controllen : Int
  msg_flags : BitVec 32

structure mmsghdr_64 where
  msg_hdr : msghdr_64
  msg_len : BitVec 32

inductive vector_syscall where
  | PR_readv
  | PR_writev
  deriving DecidableEq, Repr

inductive message_syscall where
  | PR_sendmsg
  | PR_recvmsg
  deriving DecidableEq, Repr

/-- How a call gets to the host, or does not. -/
inductive outcome where
  /-- `assert` fails. -/
  | aborts
  /-- The control data make a loop go wrong. -/
  | faults (fault : control_fault)
  /-- `alloca` has gone past the end of the stack. -/
  | overflows
  | returns (res : Int)
  | vector (pr : vector_syscall) (fd : BitVec 32) (iov : List iovec_64) (iovcnt : Nat)
  | vmsplice (fd : BitVec 32) (iov : List iovec_64) (nr_segs : Nat) (flags : BitVec 32)
  | message (pr : message_syscall) (sockfd : BitVec 32) (msg : msghdr_64) (flags : BitVec 32)
  | messages (sockfd : BitVec 32) (msgvec : List mmsghdr_64) (vlen : Nat) (flags : BitVec 32)

/-- The memory of the host, which holds that of the guest, what is on the stack of the emulator, and
    the bytes that are left on it for the arrays of a call. -/
structure machine where
  mem : Mem
  mmap_offset : BitVec 64
  stack_iovec : Nat → iovec_64
  stack_bytes : Nat → UInt8
  stack_room : Nat

namespace machine

variable (m : machine)

def g_2_h (ptr : BitVec 64) : BitVec 64 := ptr + m.mmap_offset

def load (addr : BitVec 64) (offset : Nat) : BitVec 32 := BitVec.ofNat 32 (m.mem.load (addr.toNat + offset) 4)

def load_iovec (addr : BitVec 64) : iovec_32 := ⟨m.load addr 0, m.load addr 4⟩

def load_msghdr (addr : BitVec 64) : msghdr_32 :=
  ⟨m.load addr 0, m.load addr 4, m.load addr 8, m.load addr 12, m.load addr 16, m.load addr 20, m.load addr 24⟩

/-- An array on the stack, with what is there. -/
def stack_array (n : Nat) : List iovec_64 := (List.range n).map m.stack_iovec

def iovec_64_size : Nat := 16

def mmsghdr_64_size : Nat := 64

/-- What `alloca` takes from the stack, which stays aligned. -/
def alloca_size (bytes : Nat) : Nat := (bytes + 15) / 16 * 16

/-- `alloca` never fails: it moves the stack pointer, and a stack that is too small for the arrays
    of a call faults. They are all there until the call of the host. -/
def has_room (sizes : List Nat) : Prop := (sizes.map alloca_size).sum ≤ m.stack_room

instance (sizes : List Nat) : Decidable (m.has_room sizes) := inferInstanceAs (Decidable (_ ≤ _))

/-- `int32_t` to `int64_t`. -/
def translated (v : iovec_32) : iovec_64 := ⟨m.g_2_h (v.iov_base.setWidth 64), v.iov_len.signExtend 64⟩

/-- `for (i = 0; i < n; i++)` over the elements. -/
def fill (element : Nat → iovec_32) (iov : List iovec_64) : Nat → List iovec_64
  | 0 => iov
  | n + 1 => (fill element iov n).set n (m.translated (element n))

/-! ## `guest32_to_neutral64_adapter.c` -/

/-- `iov_guest[i]` of an array. -/
def iov_guest (iov_p : BitVec 32) (i : Nat) : iovec_32 :=
  m.load_iovec (m.g_2_h (iov_p.setWidth 64) + BitVec.ofNat 64 (8 * i))

def vector_neutral (pr : vector_syscall) (fd_p iov_p iovcnt_p : BitVec 32) : outcome :=
  if iovcnt_p.toInt < 0 then .returns (-EINVAL)
  else if m.has_room [iovec_64_size * iovcnt_p.toNat] then
    .vector pr fd_p (m.fill (m.iov_guest iov_p) (m.stack_array iovcnt_p.toNat) iovcnt_p.toNat)
      iovcnt_p.toNat
  else .overflows

def readv_neutral (fd_p iov_p iovcnt_p : BitVec 32) : outcome := m.vector_neutral .PR_readv fd_p iov_p iovcnt_p

def writev_neutral (fd_p iov_p iovcnt_p : BitVec 32) : outcome := m.vector_neutral .PR_writev fd_p iov_p iovcnt_p

/-- The loop reads `iov_guest->`, not `iov_guest[i].` -/
def vmsplice_neutral (fd_p iov_p nr_segs_p flags_p : BitVec 32) : outcome :=
  if m.has_room [iovec_64_size * nr_segs_p.toNat] then
    .vmsplice fd_p
      (m.fill (fun _ => m.load_iovec (m.g_2_h (iov_p.setWidth 64))) (m.stack_array nr_segs_p.toNat)
        nr_segs_p.toNat)
      nr_segs_p.toNat flags_p
  else .overflows

/-- The element of a message, whose address is found before it is translated. -/
def iovec_guest (msg_iov : BitVec 32) (i : Nat) : iovec_32 :=
  m.load_iovec (m.g_2_h (msg_iov.setWidth 64 + BitVec.ofNat 64 (8 * i)))

def msg_name (msg_guest : msghdr_32) : BitVec 64 :=
  if msg_guest.msg_name ≠ 0 then m.g_2_h (msg_guest.msg_name.setWidth 64) else 0

/-- What `sendmsg` and `recvmsg` do alike: a message for the host without its control data. -/
def msg (msg_guest : msghdr_32) (msg_control : control_pointer) (msg_controllen : Int) : msghdr_64 where
  msg_name := m.msg_name msg_guest
  msg_namelen := msg_guest.msg_namelen
  msg_iov := (m.fill (m.iovec_guest msg_guest.msg_iov) (m.stack_array 16) msg_guest.msg_iovlen.toNat).take
    msg_guest.msg_iovlen.toNat
  msg_iovlen := msg_guest.msg_iovlen.toNat
  msg_control := msg_control
  msg_controllen := msg_controllen
  msg_flags := msg_guest.msg_flags

/-- The control data of a message. -/
def control (msg_guest : msghdr_32) : control_buffer where
  bytes := m.mem.read (m.g_2_h (msg_guest.msg_control.setWidth 64)).toNat msg_guest.msg_controllen.toNat
  length_lt := by
    rw [Bytes.Mem.length_read]
    exact msg_guest.msg_controllen.isLt

/-- The control data for the host, with loops of at most so many rounds, or how the call ends. -/
def sendmsg_control (n : Nat) (msg_guest : msghdr_32) : Except outcome (control_pointer × Int) :=
  match (m.control msg_guest).controllen n with
  | .error fault => .error (.faults fault)
  | .ok msg_controllen =>
    if msg_controllen = 0 then .ok (.null, msg_controllen)
    else if m.has_room [msg_controllen.toNat] then
      match (m.control msg_guest).copied n msg_controllen with
      | .error fault => .error (.faults fault)
      | .ok msg_control => .ok (.stack msg_control, msg_controllen)
    else .error .overflows

def sendmsg_neutral (n : Nat) (sockfd_p msg_p flags_p : BitVec 32) : outcome :=
  let msg_guest := m.load_msghdr (m.g_2_h (msg_p.setWidth 64))
  if msg_guest.msg_iovlen.toNat ≤ 16 then
    match m.sendmsg_control n msg_guest with
    | .error stops => stops
    | .ok (msg_control, msg_controllen) =>
      .message .PR_sendmsg sockfd_p (m.msg msg_guest msg_control msg_controllen) flags_p
  else .aborts

def recvmsg_neutral (sockfd_p msg_p flags_p : BitVec 32) : outcome :=
  let msg_guest := m.load_msghdr (m.g_2_h (msg_p.setWidth 64))
  if msg_guest.msg_iovlen.toNat ≤ 16 then
    let msg_controllen := recvmsg_compute_msg_controllen msg_guest.msg_controllen.toNat
    if m.has_room [msg_controllen] then
      let msg_control :=
        if msg_controllen ≠ 0 then .stack ((List.range msg_controllen).map m.stack_bytes) else .null
      .message .PR_recvmsg sockfd_p (m.msg msg_guest msg_control msg_controllen) flags_p
    else .overflows
  else .aborts

/-- `msgvec_guest[i]`, of 32 bytes. -/
def msgvec_guest (msgvec_p : BitVec 32) (i : Nat) : BitVec 64 :=
  m.g_2_h (msgvec_p.setWidth 64) + BitVec.ofNat 64 (32 * i)

def mmsghdr (msgvec_p : BitVec 32) (i : Nat) : mmsghdr_64 :=
  let msg_guest := m.load_msghdr (m.msgvec_guest msgvec_p i)
  { msg_hdr :=
      { msg_name := m.msg_name msg_guest
        msg_namelen := msg_guest.msg_namelen
        msg_iov := m.fill (m.iovec_guest msg_guest.msg_iov) (m.stack_array msg_guest.msg_iovlen.toNat)
          msg_guest.msg_iovlen.toNat
        msg_iovlen := msg_guest.msg_iovlen.toNat
        msg_control := .guest (m.g_2_h (msg_guest.msg_control.setWidth 64))
        msg_controllen := msg_guest.msg_controllen.toNat
        msg_flags := msg_guest.msg_flags }
    msg_len := m.load (m.msgvec_guest msgvec_p i) 28 }

/-- The sizes of the headers and of the vector of each. -/
def sendmmsg_arrays (msgvec_p : BitVec 32) (vlen : Nat) : List Nat :=
  mmsghdr_64_size * vlen :: (List.range vlen).map fun i =>
    iovec_64_size * (m.load_msghdr (m.msgvec_guest msgvec_p i)).msg_iovlen.toNat

def sendmmsg_neutral (sockfd_p msgvec_p vlen_p flags_p : BitVec 32) : outcome :=
  if m.has_room (m.sendmmsg_arrays msgvec_p vlen_p.toNat) then
    .messages sockfd_p ((List.range vlen_p.toNat).map (m.mmsghdr msgvec_p)) vlen_p.toNat flags_p
  else .overflows

end machine

/-! ## Requests -/

inductive request where
  | readv (fd iov iovcnt : BitVec 32)
  | writev (fd iov iovcnt : BitVec 32)
  | vmsplice (fd iov nr_segs flags : BitVec 32)
  | sendmsg (sockfd msg flags : BitVec 32)
  | recvmsg (sockfd msg flags : BitVec 32)
  | sendmmsg (sockfd msgvec vlen flags : BitVec 32)

/-- The vectors that the host is given, each with the length it is told. -/
def outcome.vectors : outcome → Option (List (List iovec_64 × Nat))
  | .vector _ _ iov iovcnt => some [(iov, iovcnt)]
  | .vmsplice _ iov nr_segs _ => some [(iov, nr_segs)]
  | .message _ _ msg _ => some [(msg.msg_iov, msg.msg_iovlen)]
  | .messages _ msgvec _ _ => some (msgvec.map fun h => (h.msg_hdr.msg_iov, h.msg_hdr.msg_iovlen))
  | _ => none

namespace machine

variable (m : machine)

def exec (n : Nat) : request → outcome
  | .readv fd iov iovcnt => m.readv_neutral fd iov iovcnt
  | .writev fd iov iovcnt => m.writev_neutral fd iov iovcnt
  | .vmsplice fd iov nr_segs flags => m.vmsplice_neutral fd iov nr_segs flags
  | .sendmsg sockfd msg flags => m.sendmsg_neutral n sockfd msg flags
  | .recvmsg sockfd msg flags => m.recvmsg_neutral sockfd msg flags
  | .sendmmsg sockfd msgvec vlen flags => m.sendmmsg_neutral sockfd msgvec vlen flags

/-- The header of a message. -/
def header (msg : BitVec 32) : msghdr_32 := m.load_msghdr (m.g_2_h (msg.setWidth 64))

def header_at (msgvec : BitVec 32) (i : Nat) : msghdr_32 := m.load_msghdr (m.msgvec_guest msgvec i)

/-- A vector of the guest. -/
def guest_vector (iov : BitVec 32) (n : Nat) : List iovec_32 := (List.range n).map (m.iov_guest iov)

def message_vector (h : msghdr_32) : List iovec_32 := m.guest_vector h.msg_iov h.msg_iovlen.toNat

def guest_vectors : request → List (List iovec_32)
  | .readv _ iov iovcnt | .writev _ iov iovcnt => [m.guest_vector iov iovcnt.toNat]
  | .vmsplice _ iov nr_segs _ => [m.guest_vector iov nr_segs.toNat]
  | .sendmsg _ msg _ | .recvmsg _ msg _ => [m.message_vector (m.header msg)]
  | .sendmmsg _ msgvec vlen _ => (List.range vlen.toNat).map fun i => m.message_vector (m.header_at msgvec i)

/-- The longest vector of a kernel. -/
def UIO_MAXIOV : Nat := 1024

/-- Requests with vectors that the kernel accepts. -/
def accepted : request → Prop
  | .readv _ _ iovcnt | .writev _ _ iovcnt => iovcnt.toNat ≤ UIO_MAXIOV
  | .vmsplice _ _ nr_segs _ => nr_segs.toNat ≤ UIO_MAXIOV
  | .sendmsg _ msg _ | .recvmsg _ msg _ => (m.header msg).msg_iovlen.toNat ≤ UIO_MAXIOV
  | .sendmmsg _ msgvec vlen _ => vlen.toNat ≤ UIO_MAXIOV ∧
      ∀ i < vlen.toNat, (m.header_at msgvec i).msg_iovlen.toNat ≤ UIO_MAXIOV

/-- An element of the host has the place of that of the guest in its memory, and its length. -/
structure same_element (v : iovec_32) (w : iovec_64) : Prop where
  iov_base : w.iov_base = v.iov_base.setWidth 64 + m.mmap_offset
  iov_len : w.iov_len.toInt = v.iov_len.toInt

/-- A vector of the host, and the length it is told, for one of the guest. -/
def same_vector (v : List iovec_32) (w : List iovec_64 × Nat) : Prop :=
  List.Forall₂ m.same_element v w.1 ∧ w.2 = v.length

/-- The request gets to the host, with the elements of the guest's vectors one by one. -/
def translates (r : request) : Prop :=
  ∃ n vectors, (m.exec n r).vectors = some vectors ∧
    List.Forall₂ m.same_vector (m.guest_vectors r) vectors

/-- The control messages of the guest are well formed and fit on the stack of the host, or the sum of
    their sizes, which is not checked, has wrapped around to 0. -/
def control_fits (h : msghdr_32) : Prop :=
  (∃ messages, guest_packed.frames (m.control h).bytes = some messages ∧
    host_total messages < 2 ^ 31 ∧ m.has_room [host_total messages]) ∨
  ∃ n, (m.control h).controllen n = .ok 0

/-- The requests that the loops are right for. -/
def translatable : request → Prop
  | .readv _ _ iovcnt | .writev _ _ iovcnt => m.has_room [iovec_64_size * iovcnt.toNat]
  | .vmsplice _ iov nr_segs _ => m.has_room [iovec_64_size * nr_segs.toNat] ∧
      ∀ i < nr_segs.toNat, m.iov_guest iov i = m.iov_guest iov 0
  | .sendmsg _ msg _ => (m.header msg).msg_iovlen.toNat ≤ 16 ∧ m.control_fits (m.header msg)
  | .recvmsg _ msg _ => (m.header msg).msg_iovlen.toNat ≤ 16 ∧
      m.has_room [recvmsg_compute_msg_controllen (m.header msg).msg_controllen.toNat]
  | .sendmmsg _ msgvec vlen _ => m.has_room (m.sendmmsg_arrays msgvec vlen.toNat)

/-! ## The loops -/

variable {m}

theorem length_fill (element : Nat → iovec_32) (iov : List iovec_64) (n : Nat) :
    (m.fill element iov n).length = iov.length := by
  induction n with
  | zero => rfl
  | succ n ih => rw [fill, List.length_set, ih]

/-- The first elements after as many rounds. -/
theorem fill_take (element : Nat → iovec_32) {iov : List iovec_64} {n : Nat} (hn : n ≤ iov.length) :
    (m.fill element iov n).take n = (List.range n).map fun i => m.translated (element i) := by
  induction n with
  | zero => rfl
  | succ n ih =>
    have hlength := length_fill (m := m) element iov n
    rw [fill, List.take_add_one, List.take_set_of_le (Nat.le_refl n), ih (by omega), List.range_succ, List.map_append,
      List.getElem?_set_self (by omega)]
    rfl

/-- An array of just the size that is needed. -/
theorem fill_array (element : Nat → iovec_32) (n : Nat) :
    m.fill element (m.stack_array n) n = (List.range n).map fun i => m.translated (element i) := by
  have hlength : (m.stack_array n).length = n := by
    rw [stack_array, List.length_map, List.length_range]
  have htake := fill_take (m := m) element (Nat.le_of_eq hlength.symm)
  rwa [List.take_of_length_le (by rw [length_fill, hlength])] at htake

theorem iovec_guest_eq (iov : BitVec 32) (i : Nat) : m.iovec_guest iov i = m.iov_guest iov i := by
  unfold iovec_guest iov_guest g_2_h
  rw [BitVec.add_assoc, BitVec.add_comm (BitVec.ofNat 64 (8 * i)), ← BitVec.add_assoc]

theorem translated_injective : Function.Injective m.translated := by
  intro v w h
  obtain ⟨base, len⟩ := v
  obtain ⟨base', len'⟩ := w
  unfold translated g_2_h at h
  rw [iovec_64.mk.injEq, BitVec.add_left_inj] at h
  have hbase : base = base' := by
    have h := congrArg (BitVec.setWidth 32) h.1
    rwa [BitVec.setWidth_setWidth_of_le _ (by decide), BitVec.setWidth_setWidth_of_le _ (by decide),
      BitVec.setWidth_eq, BitVec.setWidth_eq] at h
  have hlen : len = len' := by
    have h := congrArg BitVec.toInt h.2
    rw [BitVec.toInt_signExtend_of_le (by decide), BitVec.toInt_signExtend_of_le (by decide)] at h
    exact BitVec.eq_of_toInt_eq h
  rw [hbase, hlen]

/-- The loops write the elements that they should. -/
theorem same_element_iff (v : iovec_32) (w : iovec_64) : m.same_element v w ↔ w = m.translated v := by
  constructor
  · rintro ⟨hbase, hlen⟩
    obtain ⟨base, len⟩ := w
    have hlen' : len = v.iov_len.signExtend 64 := by
      apply BitVec.eq_of_toInt_eq
      rw [BitVec.toInt_signExtend_of_le (by decide)]
      exact hlen
    rw [hlen']
    exact congrArg (iovec_64.mk · _) hbase
  · rintro rfl
    exact ⟨rfl, BitVec.toInt_signExtend_of_le (by decide)⟩

/-! ## What each call gives the host -/

/-- A vector as the host should be given it. -/
def host_vector (m : machine) (v : List iovec_32) : List iovec_64 × Nat := (v.map m.translated, v.length)

theorem fill_vector (iov n : BitVec 32) :
    (m.fill (m.iov_guest iov) (m.stack_array n.toNat) n.toNat, n.toNat) =
      m.host_vector (m.guest_vector iov n.toNat) := by
  rw [fill_array]
  unfold host_vector guest_vector
  rw [List.map_map, List.length_map, List.length_range]
  rfl

/-- Lists related by a function. -/
theorem forall₂_iff_map {α β : Type} {R : α → β → Prop} {f : α → β} (hR : ∀ a b, R a b ↔ b = f a)
    (l : List α) (u : List β) : List.Forall₂ R l u ↔ u = l.map f := by
  induction l generalizing u with
  | nil => exact List.forall₂_nil_left_iff
  | cons a l ih =>
    rw [List.forall₂_cons_left_iff, List.map_cons]
    constructor
    · rintro ⟨b, rest, hb, hrest, rfl⟩
      rw [(hR a b).mp hb, (ih rest).mp hrest]
    · rintro rfl
      exact ⟨_, _, (hR a _).mpr rfl, (ih _).mpr rfl, rfl⟩

theorem same_vector_iff (v : List iovec_32) (w : List iovec_64 × Nat) :
    m.same_vector v w ↔ w = m.host_vector v := by
  unfold same_vector host_vector
  rw [forall₂_iff_map same_element_iff, Prod.ext_iff]

theorem translates_iff (r : request) : m.translates r ↔
    ∃ n, (m.exec n r).vectors = some ((m.guest_vectors r).map m.host_vector) := by
  unfold translates
  simp only [forall₂_iff_map same_vector_iff, exists_eq_right]

theorem vector_translated (pr : vector_syscall) (fd iov : BitVec 32) {iovcnt : BitVec 32}
    (h : iovcnt.toNat ≤ UIO_MAXIOV) :
    (m.vector_neutral pr fd iov iovcnt).vectors = some [m.host_vector (m.guest_vector iov iovcnt.toNat)] ↔
      m.has_room [iovec_64_size * iovcnt.toNat] := by
  have hpos : ¬ iovcnt.toInt < 0 := by
    have h1024 : UIO_MAXIOV = 1024 := rfl
    rw [BitVec.toInt_eq_toNat_cond]
    split <;> omega
  unfold vector_neutral
  rw [if_neg hpos]
  by_cases hroom : m.has_room [iovec_64_size * iovcnt.toNat]
  · refine iff_of_true ?_ hroom
    rw [if_pos hroom, ← fill_vector]
    rfl
  · rw [if_neg hroom]
    exact iff_of_false (Option.some_ne_none _).symm hroom

/-- The array of a message has room for its vector. -/
theorem message_translated {h : msghdr_32} (hiov : h.msg_iovlen.toNat ≤ 16) (control : control_pointer)
    (controllen : Int) :
    ((m.msg h control controllen).msg_iov, (m.msg h control controllen).msg_iovlen) =
      m.host_vector (m.message_vector h) := by
  have hroom : h.msg_iovlen.toNat ≤ (m.stack_array 16).length := by
    rw [stack_array, List.length_map, List.length_range]
    exact hiov
  show ((m.fill (m.iovec_guest h.msg_iov) (m.stack_array 16) h.msg_iovlen.toNat).take h.msg_iovlen.toNat, _) = _
  rw [fill_take _ hroom]
  unfold host_vector message_vector guest_vector
  rw [List.map_map, List.length_map, List.length_range]
  simp only [iovec_guest_eq]
  rfl

theorem mmsghdr_translated (msgvec : BitVec 32) (i : Nat) :
    ((m.mmsghdr msgvec i).msg_hdr.msg_iov, (m.mmsghdr msgvec i).msg_hdr.msg_iovlen) =
      m.host_vector (m.message_vector (m.header_at msgvec i)) := by
  show (m.fill (m.iovec_guest (m.header_at msgvec i).msg_iov) _ _, _) = _
  rw [funext (iovec_guest_eq _)]
  exact fill_vector _ _

/-- Every element is the first one. -/
theorem vmsplice_translated (fd iov nr_segs flags : BitVec 32) :
    (m.vmsplice_neutral fd iov nr_segs flags).vectors =
        some [m.host_vector (m.guest_vector iov nr_segs.toNat)] ↔
      m.has_room [iovec_64_size * nr_segs.toNat] ∧
        ∀ i < nr_segs.toNat, m.iov_guest iov i = m.iov_guest iov 0 := by
  have hfirst : m.load_iovec (m.g_2_h (iov.setWidth 64)) = m.iov_guest iov 0 := by
    show _ = m.load_iovec (m.g_2_h (iov.setWidth 64) + 0#64)
    rw [BitVec.add_zero]
  unfold vmsplice_neutral
  by_cases hroom : m.has_room [iovec_64_size * nr_segs.toNat]
  · rw [if_pos hroom, hfirst, fill_array]
    show some [_] = _ ↔ _
    unfold host_vector guest_vector
    rw [List.map_map, List.length_map, List.length_range]
    simp only [Option.some.injEq, List.cons.injEq, and_true, Prod.mk.injEq, List.map_inj_left,
      List.mem_range, Function.comp_apply]
    constructor
    · intro h
      exact ⟨hroom, fun i hi => (translated_injective (h i hi)).symm⟩
    · rintro ⟨-, h⟩ i hi
      rw [h i hi]
  · rw [if_neg hroom]
    exact iff_of_false (Option.some_ne_none _).symm fun h => hroom h.1

/-- The first loop has one result, however long it may go on. -/
theorem controllen_eq {guest : control_buffer} {n : Nat} {controllen : Int} {messages : List Frames.Frame}
    (hframes : guest_packed.frames guest.bytes = some messages) (htotal : host_total messages < 2 ^ 31)
    (hlen : guest.controllen n = .ok controllen) : controllen = host_total messages := by
  unfold control_buffer.controllen at hlen
  rcases compute_frames (n := n) hframes guest.length_lt (Nat.two_pow_pos 32) with hres | ⟨hres, -⟩
  · rw [hres, Nat.zero_add, Nat.mod_eq_of_lt (by omega)] at hlen
    exact (Except.ok.inj hlen).symm.trans (if_pos htotal)
  · rw [hres] at hlen
    cases hlen

/-- The control data get to the host. -/
theorem control_copied_iff (h : msghdr_32) :
    (∃ n r, m.sendmsg_control n h = .ok r) ↔ m.control_fits h := by
  unfold sendmsg_control
  constructor
  · rintro ⟨n, r, hr⟩
    cases hlen : (m.control h).controllen n with
    | error fault =>
      rw [hlen] at hr
      cases hr
    | ok controllen =>
      rw [hlen] at hr
      dsimp only at hr
      split_ifs at hr with hzero hroom
      · -- a sum of 0, from no messages or from so many that it wraps around
        subst hzero
        exact .inr ⟨n, hlen⟩
      · cases hcopied : (m.control h).copied n controllen with
        | error fault =>
          rw [hcopied] at hr
          cases hr
        | ok host =>
          obtain ⟨messages, hframes, -, htotal⟩ := copied_messages hlen hcopied
          rw [controllen_eq hframes htotal hlen] at hroom
          exact .inl ⟨messages, hframes, htotal, hroom⟩
  · rintro (⟨messages, hframes, htotal, hroom⟩ | ⟨n, hlen⟩)
    · obtain ⟨hsize, hcopied⟩ := messages_copied hframes htotal
      refine ⟨(m.control h).bytes.length + 1, ?_⟩
      rw [hsize]
      dsimp only
      by_cases hzero : (host_total messages : Int) = 0
      · rw [if_pos hzero]
        exact ⟨_, rfl⟩
      · rw [if_neg hzero, Int.toNat_natCast, if_pos hroom, hcopied]
        exact ⟨_, rfl⟩
    · refine ⟨n, ?_⟩
      rw [hlen]
      exact ⟨_, if_pos rfl⟩

theorem control_stops {n : Nat} {h : msghdr_32} {stops : outcome}
    (hstops : m.sendmsg_control n h = .error stops) : stops.vectors = none := by
  unfold sendmsg_control at hstops
  split at hstops
  · cases hstops
    rfl
  · split_ifs at hstops
    · split at hstops
      · cases hstops
        rfl
      · cases hstops
    · cases hstops
      rfl

theorem sendmsg_translated (sockfd msg flags : BitVec 32) :
    (∃ n, (m.sendmsg_neutral n sockfd msg flags).vectors =
        some [m.host_vector (m.message_vector (m.header msg))]) ↔
      (m.header msg).msg_iovlen.toNat ≤ 16 ∧ m.control_fits (m.header msg) := by
  rw [← control_copied_iff]
  by_cases hiov : (m.header msg).msg_iovlen.toNat ≤ 16
  · have hsend : ∀ n, m.sendmsg_neutral n sockfd msg flags =
        match m.sendmsg_control n (m.header msg) with
        | .error stops => stops
        | .ok (msg_control, msg_controllen) =>
          .message .PR_sendmsg sockfd (m.msg (m.header msg) msg_control msg_controllen) flags :=
      fun n => if_pos hiov
    constructor
    · rintro ⟨n, h⟩
      rw [hsend] at h
      cases hcontrol : m.sendmsg_control n (m.header msg) with
      | error stops =>
        -- the call has stopped before it came to the host
        rw [hcontrol] at h
        exact absurd (h.symm.trans (control_stops hcontrol)) (Option.some_ne_none _)
      | ok r => exact ⟨hiov, n, r, hcontrol⟩
    · rintro ⟨-, n, r, hcontrol⟩
      refine ⟨n, ?_⟩
      rw [hsend, hcontrol, ← message_translated hiov r.1 r.2]
      rfl
  · have hsend : ∀ n, m.sendmsg_neutral n sockfd msg flags = .aborts := fun n => if_neg hiov
    constructor
    · rintro ⟨n, h⟩
      rw [hsend] at h
      cases h
    · exact fun h => absurd h.1 hiov

theorem recvmsg_translated (sockfd msg flags : BitVec 32) :
    (m.recvmsg_neutral sockfd msg flags).vectors =
        some [m.host_vector (m.message_vector (m.header msg))] ↔
      (m.header msg).msg_iovlen.toNat ≤ 16 ∧
        m.has_room [recvmsg_compute_msg_controllen (m.header msg).msg_controllen.toNat] := by
  by_cases hiov : (m.header msg).msg_iovlen.toNat ≤ 16
  · rw [and_iff_right hiov]
    unfold recvmsg_neutral
    dsimp only
    rw [if_pos (show (m.load_msghdr _).msg_iovlen.toNat ≤ 16 from hiov)]
    by_cases hroom :
        m.has_room [recvmsg_compute_msg_controllen (m.header msg).msg_controllen.toNat]
    · refine iff_of_true ?_ hroom
      rw [if_pos (show m.has_room [recvmsg_compute_msg_controllen (m.load_msghdr _).msg_controllen.toNat]
        from hroom)]
      exact congrArg (fun v => some [v]) (message_translated hiov _ _)
    · refine iff_of_false ?_ hroom
      rw [if_neg (show ¬ m.has_room [recvmsg_compute_msg_controllen (m.load_msghdr _).msg_controllen.toNat]
        from hroom)]
      exact (Option.some_ne_none _).symm
  · have hrecv : m.recvmsg_neutral sockfd msg flags = .aborts := if_neg hiov
    rw [hrecv]
    exact ⟨fun h => (Option.some_ne_none _ h.symm).elim, fun h => absurd h.1 hiov⟩

theorem sendmmsg_translated (sockfd msgvec vlen flags : BitVec 32) :
    (m.sendmmsg_neutral sockfd msgvec vlen flags).vectors =
        some ((List.range vlen.toNat).map fun i =>
          m.host_vector (m.message_vector (m.header_at msgvec i))) ↔
      m.has_room (m.sendmmsg_arrays msgvec vlen.toNat) := by
  unfold sendmmsg_neutral
  by_cases hroom : m.has_room (m.sendmmsg_arrays msgvec vlen.toNat)
  · refine iff_of_true ?_ hroom
    rw [if_pos hroom]
    show some (((List.range vlen.toNat).map (m.mmsghdr msgvec)).map _) = _
    rw [List.map_map]
    exact congrArg some (List.map_congr_left fun i _ => mmsghdr_translated msgvec i)
  · rw [if_neg hroom]
    exact iff_of_false (Option.some_ne_none _).symm hroom

/-- A vector that a kernel accepts gets to the host for exactly the requests whose loops suit it and
    whose arrays fit on the stack. -/
theorem vectors_translated {r : request} (h : m.accepted r) : m.translates r ↔ m.translatable r := by
  rw [translates_iff]
  cases r with
  | readv fd iov iovcnt =>
    exact exists_const Nat |>.trans (vector_translated _ fd iov h)
  | writev fd iov iovcnt =>
    exact exists_const Nat |>.trans (vector_translated _ fd iov h)
  | vmsplice fd iov nr_segs flags =>
    exact exists_const Nat |>.trans (vmsplice_translated fd iov nr_segs flags)
  | sendmsg sockfd msg flags => exact sendmsg_translated sockfd msg flags
  | recvmsg sockfd msg flags =>
    exact exists_const Nat |>.trans (recvmsg_translated sockfd msg flags)
  | sendmmsg sockfd msgvec vlen flags =>
    have hvectors : (m.guest_vectors (.sendmmsg sockfd msgvec vlen flags)).map m.host_vector =
        (List.range vlen.toNat).map fun i =>
          m.host_vector (m.message_vector (m.header_at msgvec i)) := by
      rw [guest_vectors, List.map_map]
      rfl
    rw [hvectors]
    exact exists_const Nat |>.trans (sendmmsg_translated sockfd msgvec vlen flags)

end machine

/-- A vector of two buffers, at 0x1000 for the guest. -/
def two_buffers : machine where
  mem := Mem.write (fun _ => 0) 0x8000001000 [0, 0x20, 0, 0, 16, 0, 0, 0, 0, 0x30, 0, 0, 32, 0, 0, 0]
  mmap_offset := 0x8000000000
  stack_iovec := fun _ => ⟨0, 0⟩
  stack_bytes := fun _ => 0
  stack_room := 0x10000

theorem two_buffers_read : two_buffers.translates (.readv 3 0x1000 2) :=
  (machine.vectors_translated (show two_buffers.accepted (.readv 3 0x1000 2) by
    unfold machine.accepted; decide)).mpr (show two_buffers.has_room [32] by decide)

/-- The second buffer is lost. -/
theorem second_buffer_lost :
    two_buffers.accepted (.vmsplice 4 0x1000 2 0) ∧ ¬ two_buffers.translates (.vmsplice 4 0x1000 2 0) := by
  have hdiffer : two_buffers.iov_guest 0x1000 1 ≠ two_buffers.iov_guest 0x1000 0 := by decide
  refine ⟨by unfold machine.accepted; decide, ?_⟩
  rw [machine.translates_iff]
  rintro ⟨n, h⟩
  exact hdiffer (((machine.vmsplice_translated 4 0x1000 2 0).mp h).2 1 (by decide))

end Umeq.Messages
