import Umeq.Lib.Frames
import Umeq.Syscall.Adapter

/-! # The control messages of a socket

    `guest32_to_neutral64_adapter.c` rewrites the control messages of `sendmsg` for a host with longer
    headers: one loop finds the size of the host's buffer, another one fills it. Both go from a header
    to the next by its `cmsg_len`, which the guest wrote.

    * `sendmsg_compute_msg_controllen`, `sendmsg_copy_msg_control`: the loops. A pointer is what is left
      of its buffer, and an access past the end of a buffer is an error of the model.
    * `guest_rules`, `host_rules`: the layouts of the two sides.
    * `guest_packed`, `host_packed`: messages right behind one another, which is how the loops see them.
    * `harmless`: both loops end and stay in their buffers.

    No length is checked: a `cmsg_len` of 0 is an endless loop, a larger one than what is left or a
    smaller one than a header makes a difference of sizes wrap.
-/

namespace Umeq.Messages

open Bytes (le ofLE)
open Frames (Frame Format)
open Umeq.Syscall (CMSGHDR_GUEST_SIZE CMSGHDR_HOST_SIZE CMSGHDR_HOST_GUEST_SIZE_DIFF)

/-! ## The loops -/

inductive control_fault where
  /-- An access outside of a buffer. -/
  | outside
  /-- The loop has not ended yet. -/
  | runs_on
  deriving DecidableEq, Repr

/-- So many bytes at an offset of a pointer. -/
def fetch (ptr : List UInt8) (offset n : Nat) : Except control_fault (List UInt8) :=
  if offset + n ≤ ptr.length then .ok ((ptr.drop offset).take n) else .error .outside

def fetch_uint (ptr : List UInt8) (offset n : Nat) : Except control_fault Nat :=
  (fetch ptr offset n).map ofLE

/-- The bytes written to a buffer of so many, which grow from its start. -/
def append_bytes (room : Nat) (written bytes : List UInt8) : Except control_fault (List UInt8) :=
  if written.length + bytes.length ≤ room then .ok (written ++ bytes) else .error .outside

/-- The differences of the code, in so many bits. -/
def wrapping_sub (bits a b : Nat) : Nat := (a + 2 ^ bits - b) % 2 ^ bits

/-- The value of an `int`. -/
def to_int (x : Nat) : Int := if x < 2 ^ 31 then x else x - 2 ^ 32

/-- For at most so many rounds, as `res` with 32 bits. -/
def sendmsg_compute_msg_controllen :
    Nat → (msg_controllen_guest : Nat) → (msg_control_guest : List UInt8) → (res : Nat) →
      Except control_fault Nat
  | 0, _, _, _ => .error .runs_on
  | n + 1, msg_controllen_guest, msg_control_guest, res =>
    if CMSGHDR_GUEST_SIZE ≤ msg_controllen_guest then do
      let cmsg_len ← fetch_uint msg_control_guest 0 4
      sendmsg_compute_msg_controllen n (wrapping_sub 32 msg_controllen_guest cmsg_len)
        (msg_control_guest.drop cmsg_len) ((res + (cmsg_len + CMSGHDR_HOST_GUEST_SIZE_DIFF)) % 2 ^ 32)
    else .ok res

/-- For at most so many rounds: the bytes in the buffer of the host. -/
def sendmsg_copy_msg_control (room : Nat) :
    Nat → (msg_control_host msg_control_guest : List UInt8) → (msg_controllen_guest : Nat) →
      Except control_fault (List UInt8)
  | 0, _, _, _ => .error .runs_on
  | n + 1, msg_control_host, msg_control_guest, msg_controllen_guest =>
    if CMSGHDR_GUEST_SIZE ≤ msg_controllen_guest then do
      let cmsg_len ← fetch_uint msg_control_guest 0 4
      let cmsg_level ← fetch_uint msg_control_guest 4 4
      let cmsg_type ← fetch_uint msg_control_guest 8 4
      let msg_control_host ← append_bytes room msg_control_host
        (le 8 (cmsg_len + CMSGHDR_HOST_GUEST_SIZE_DIFF) ++ (le 4 cmsg_level ++ le 4 cmsg_type))
      let payload ← fetch msg_control_guest CMSGHDR_GUEST_SIZE
        (wrapping_sub 64 cmsg_len CMSGHDR_GUEST_SIZE)
      let msg_control_host ← append_bytes room msg_control_host payload
      sendmsg_copy_msg_control room n msg_control_host (msg_control_guest.drop cmsg_len)
        (wrapping_sub 32 msg_controllen_guest cmsg_len)
    else .ok msg_control_host

/-- The control buffer of a guest, of `msg_controllen` bytes. -/
structure control_buffer where
  bytes : List UInt8
  length_lt : bytes.length < 2 ^ 32

namespace control_buffer

variable (guest : control_buffer)

/-- The result of the first loop, as the code calls it. -/
def controllen (n : Nat) : Except control_fault Int :=
  (sendmsg_compute_msg_controllen n guest.bytes.length guest.bytes 0).map to_int

/-- The second loop, for a buffer of so many bytes. -/
def copied (n : Nat) (controllen : Int) : Except control_fault (List UInt8) :=
  sendmsg_copy_msg_control controllen.toNat n [] guest.bytes guest.bytes.length

/-- Both loops end, read in the buffer of the guest and write in the bytes the first one asked for. -/
def harmless : Prop :=
  ∃ n controllen host, guest.controllen n = .ok controllen ∧ guest.copied n controllen = .ok host

end control_buffer

/-! ## Layouts -/

/-- The tag of a message is its level and its type. -/
def guest_rules : Format := ⟨4, 8, 4, by decide, by decide⟩

def host_rules : Format := ⟨8, 8, 8, by decide, by decide⟩

/-- Messages right behind one another. -/
def guest_packed : Format := ⟨4, 8, 1, by decide, by decide⟩

def host_packed : Format := ⟨8, 8, 1, by decide, by decide⟩

/-- The size of the host's messages. -/
def host_total (messages : List Frame) : Nat := (messages.map host_packed.size).sum

/-- Every length is in range, and the sum is an `int`. -/
def control_buffer.well_formed (guest : control_buffer) : Prop :=
  ∃ messages, guest_packed.frames guest.bytes = some messages ∧ host_total messages < 2 ^ 31

/-! ## One round -/

section rounds

variable {ptr : List UInt8}

theorem gap_packed (n : Nat) : guest_packed.gap n = 0 := Nat.mod_one _

theorem fetch_ok {offset n : Nat} (h : offset + n ≤ ptr.length) :
    fetch ptr offset n = .ok ((ptr.drop offset).take n) := if_pos h

theorem fetch_outside {offset n : Nat} (h : ptr.length < offset + n) :
    fetch ptr offset n = .error .outside := if_neg (Nat.not_le.mpr h)

theorem append_ok {room : Nat} {written bytes : List UInt8} (h : written.length + bytes.length ≤ room) :
    append_bytes room written bytes = .ok (written ++ bytes) := if_pos h

theorem append_outside {room : Nat} {written bytes : List UInt8} (h : room < written.length + bytes.length) :
    append_bytes room written bytes = .error .outside := if_neg (Nat.not_le.mpr h)

theorem ok_bind {α β : Type} (a : α) (f : α → Except control_fault β) : (Except.ok a >>= f) = f a := rfl

theorem fetch_uint_ok {offset n : Nat} (h : offset + n ≤ ptr.length) :
    fetch_uint ptr offset n = .ok (ofLE ((ptr.drop offset).take n)) := by
  rw [fetch_uint, fetch_ok h]
  rfl

/-- The first field of a header. -/
theorem fetch_len (h : CMSGHDR_GUEST_SIZE ≤ ptr.length) : fetch_uint ptr 0 4 = .ok (guest_packed.len ptr) :=
  fetch_uint_ok (Nat.le_trans (by decide) h)

theorem len_lt (ptr : List UInt8) : guest_packed.len ptr < 2 ^ 32 := by
  have h := Bytes.ofLE_lt (ptr.take 4)
  have hmono : 256 ^ (ptr.take 4).length ≤ 256 ^ 4 :=
    Nat.pow_le_pow_right (by decide) (List.length_take_le _ _)
  exact Nat.lt_of_lt_of_le h hmono

theorem wrapping_sub_le {bits a b : Nat} (hb : b ≤ a) (ha : a < 2 ^ bits) :
    wrapping_sub bits a b = a - b := by
  unfold wrapping_sub
  rw [show a + 2 ^ bits - b = a - b + 2 ^ bits by omega, Nat.add_mod_right]
  exact Nat.mod_eq_of_lt (by omega)

theorem wrapping_sub_gt {bits a b : Nat} (ha : a < b) (hb : b < 2 ^ bits) :
    wrapping_sub bits a b = a + 2 ^ bits - b :=
  Nat.mod_eq_of_lt (by omega)

/-- Two numbers that are copied one after the other. -/
theorem two_fields {offset : Nat} (h : offset + 8 ≤ ptr.length) :
    le 4 (ofLE ((ptr.drop offset).take 4)) ++ le 4 (ofLE ((ptr.drop (offset + 4)).take 4)) =
      (ptr.drop offset).take 8 := by
  have hfirst : ((ptr.drop offset).take 4).length = 4 := by
    rw [List.length_take, List.length_drop]
    omega
  have hsecond : ((ptr.drop (offset + 4)).take 4).length = 4 := by
    rw [List.length_take, List.length_drop]
    omega
  have hle := Bytes.le_ofLE ((ptr.drop offset).take 4)
  have hle' := Bytes.le_ofLE ((ptr.drop (offset + 4)).take 4)
  rw [hfirst] at hle
  rw [hsecond] at hle'
  rw [hle, hle', show 8 = 4 + 4 from rfl, List.take_add, List.drop_drop]

/-- The level and the type. -/
theorem tag_fields (h : CMSGHDR_GUEST_SIZE ≤ ptr.length) :
    le 4 (ofLE ((ptr.drop 4).take 4)) ++ le 4 (ofLE ((ptr.drop 8).take 4)) = (guest_packed.first ptr).tag := by
  refine (@two_fields ptr 4 h).trans ?_
  show _ = (ptr.take (4 + 8)).drop 4
  rw [List.drop_take]

/-- A round on a length in range. -/
theorem copy_round {room n : Nat} {host : List UInt8} (hlt : ptr.length < 2 ^ 32)
    (hlow : CMSGHDR_GUEST_SIZE ≤ guest_packed.len ptr) (hhigh : guest_packed.len ptr ≤ ptr.length) :
    sendmsg_copy_msg_control room (n + 1) host ptr ptr.length =
      if host.length + host_packed.size (guest_packed.first ptr) ≤ room then
        sendmsg_copy_msg_control room n (host ++ host_packed.bytes (guest_packed.first ptr))
          (ptr.drop (guest_packed.len ptr)) (ptr.drop (guest_packed.len ptr)).length
      else .error .outside := by
  have hlong : CMSGHDR_GUEST_SIZE ≤ ptr.length := Nat.le_trans hlow hhigh
  have h12 : 12 ≤ guest_packed.len ptr := hlow
  have hlen := len_lt ptr
  have hpayload : fetch ptr CMSGHDR_GUEST_SIZE (wrapping_sub 64 (guest_packed.len ptr) CMSGHDR_GUEST_SIZE) =
      .ok (guest_packed.first ptr).payload := by
    rw [wrapping_sub_le hlow (by omega), fetch_ok (by omega)]
    show _ = Except.ok ((ptr.take (guest_packed.len ptr)).drop 12)
    rw [List.drop_take]
    rfl
  have hsize : (guest_packed.first ptr).payload.length = guest_packed.len ptr - 12 := by
    show ((ptr.take (guest_packed.len ptr)).drop 12).length = _
    rw [List.length_drop, List.length_take, Nat.min_eq_left hhigh]
  have htag : (guest_packed.first ptr).tag.length = 8 := by
    show ((ptr.take 12).drop 4).length = 8
    rw [List.length_drop, List.length_take]
    omega
  have hfield : le 8 (guest_packed.len ptr + CMSGHDR_HOST_GUEST_SIZE_DIFF) =
      le 8 (host_packed.size (guest_packed.first ptr)) := by
    have hsum : guest_packed.len ptr + CMSGHDR_HOST_GUEST_SIZE_DIFF =
        host_packed.size (guest_packed.first ptr) := by
      show guest_packed.len ptr + 4 = 16 + (guest_packed.first ptr).payload.length
      rw [hsize]
      omega
    rw [hsum]
  have hrest : wrapping_sub 32 ptr.length (guest_packed.len ptr) =
      (ptr.drop (guest_packed.len ptr)).length := by
    rw [wrapping_sub_le hhigh hlt, List.length_drop]
  have hheader : (le 8 (host_packed.size (guest_packed.first ptr)) ++
      (guest_packed.first ptr).tag).length = 16 := by
    rw [List.length_append, Bytes.length_le, htag]
  have hlevel := @fetch_uint_ok ptr 4 4 (Nat.le_trans (by decide) hlong)
  have htype := @fetch_uint_ok ptr 8 4 (Nat.le_trans (by decide) hlong)
  have htotal : host_packed.size (guest_packed.first ptr) = 16 + (guest_packed.first ptr).payload.length := rfl
  rw [sendmsg_copy_msg_control, if_pos hlong, fetch_len hlong, ok_bind, hlevel, ok_bind, htype, ok_bind,
    hfield, tag_fields hlong, hpayload, hrest]
  by_cases hfirst : host.length + 16 ≤ room
  · rw [append_ok (by rw [hheader]; exact hfirst), ok_bind, ok_bind]
    by_cases hroom : host.length + host_packed.size (guest_packed.first ptr) ≤ room
    · rw [if_pos hroom, append_ok (by rw [List.length_append, hheader]; omega), ok_bind,
        List.append_assoc, List.append_assoc]
      rfl
    · rw [if_neg hroom, append_outside (by rw [List.length_append, hheader]; omega)]
      rfl
  · rw [if_neg (by omega), append_outside (by rw [hheader]; omega)]
    rfl

/-- A length out of range makes the payload reach out of the guest's buffer. -/
theorem copy_bad {room n : Nat} {host r : List UInt8} (hlt : ptr.length < 2 ^ 32)
    (hlong : CMSGHDR_GUEST_SIZE ≤ ptr.length)
    (h : ¬ (CMSGHDR_GUEST_SIZE ≤ guest_packed.len ptr ∧ guest_packed.len ptr ≤ ptr.length)) :
    sendmsg_copy_msg_control room (n + 1) host ptr ptr.length ≠ .ok r := by
  have h12 : 12 ≤ ptr.length := hlong
  have hlen := len_lt ptr
  have hpayload : fetch ptr CMSGHDR_GUEST_SIZE (wrapping_sub 64 (guest_packed.len ptr) CMSGHDR_GUEST_SIZE) =
      .error .outside := by
    refine fetch_outside ?_
    by_cases hlow : CMSGHDR_GUEST_SIZE ≤ guest_packed.len ptr
    · rw [wrapping_sub_le hlow (by omega)]
      omega
    · rw [wrapping_sub_gt (Nat.not_le.mp hlow) (by decide)]
      omega
  have hlevel := @fetch_uint_ok ptr 4 4 (Nat.le_trans (by decide) hlong)
  have htype := @fetch_uint_ok ptr 8 4 (Nat.le_trans (by decide) hlong)
  rw [sendmsg_copy_msg_control, if_pos hlong, fetch_len hlong, ok_bind, hlevel, ok_bind, htype, ok_bind,
    hpayload]
  unfold append_bytes
  split
  · exact nofun
  · exact nofun

theorem copy_short {room n : Nat} {host : List UInt8} (h : ptr.length < CMSGHDR_GUEST_SIZE) :
    sendmsg_copy_msg_control room (n + 1) host ptr ptr.length = .ok host := by
  rw [sendmsg_copy_msg_control, if_neg (Nat.not_le.mpr h)]

theorem compute_round {n res : Nat} (hlt : ptr.length < 2 ^ 32)
    (hlow : CMSGHDR_GUEST_SIZE ≤ guest_packed.len ptr) (hhigh : guest_packed.len ptr ≤ ptr.length) :
    sendmsg_compute_msg_controllen (n + 1) ptr.length ptr res =
      sendmsg_compute_msg_controllen n (ptr.drop (guest_packed.len ptr)).length
        (ptr.drop (guest_packed.len ptr)) ((res + host_packed.size (guest_packed.first ptr)) % 2 ^ 32) := by
  have hlong : CMSGHDR_GUEST_SIZE ≤ ptr.length := Nat.le_trans hlow hhigh
  have hsize : guest_packed.size (guest_packed.first ptr) = guest_packed.len ptr :=
    (@Format.bytes_first guest_packed ptr hlow hhigh).2.2
  have hsum : guest_packed.len ptr + CMSGHDR_HOST_GUEST_SIZE_DIFF =
      host_packed.size (guest_packed.first ptr) := by
    rw [← hsize]
    show 12 + _ + 4 = 16 + _
    omega
  rw [sendmsg_compute_msg_controllen, if_pos hlong, fetch_len hlong, ok_bind, hsum,
    wrapping_sub_le hhigh hlt, List.length_drop]

end rounds

/-! ## All rounds -/

section runs

variable {ptr : List UInt8} {messages : List Frame}

theorem fits_host {f : Frame} (hf : guest_packed.Fits f) : host_packed.Fits f where
  tag := hf.tag
  size := by
    have h : 12 + f.payload.length < 256 ^ 4 := hf.size
    show 16 + f.payload.length < 256 ^ 8
    omega

theorem length_packed_bytes {f : Frame} (hf : guest_packed.Fits f) :
    (host_packed.bytes f).length = host_packed.size f := Format.length_bytes (fits_host hf)

theorem host_total_cons (f : Frame) (messages : List Frame) :
    host_total (f :: messages) = host_packed.size f + host_total messages := rfl

/-- A buffer of the guest starts with a frame, has a length out of range or is used up. -/
theorem guest_cases (ptr : List UInt8) :
    ptr.length < CMSGHDR_GUEST_SIZE ∨
      CMSGHDR_GUEST_SIZE ≤ ptr.length ∧
        ¬ (CMSGHDR_GUEST_SIZE ≤ guest_packed.len ptr ∧ guest_packed.len ptr ≤ ptr.length) ∨
      CMSGHDR_GUEST_SIZE ≤ guest_packed.len ptr ∧ guest_packed.len ptr ≤ ptr.length := by
  omega

theorem packed_step (hlow : CMSGHDR_GUEST_SIZE ≤ guest_packed.len ptr)
    (hhigh : guest_packed.len ptr ≤ ptr.length) :
    guest_packed.frames ptr =
      (guest_packed.frames (ptr.drop (guest_packed.len ptr))).map (guest_packed.first ptr :: ·) := by
  have h := @Format.frames_step guest_packed ptr hlow hhigh
  rwa [gap_packed, Nat.add_zero] at h

/-- A copy that stays in its buffers has copied the messages of the guest. -/
theorem copy_ok {room n : Nat} {host r : List UInt8} (hlt : ptr.length < 2 ^ 32)
    (hhost : host.length ≤ room) (h : sendmsg_copy_msg_control room n host ptr ptr.length = .ok r) :
    ∃ messages, guest_packed.frames ptr = some messages ∧
      r = host ++ messages.flatMap host_packed.bytes ∧ host.length + host_total messages ≤ room := by
  induction n generalizing host ptr with
  | zero => cases h
  | succ n ih =>
    rcases guest_cases ptr with hshort | ⟨hlong, hbad⟩ | ⟨hlow, hhigh⟩
    · rw [copy_short hshort] at h
      cases h
      exact ⟨[], Format.frames_short hshort, (List.append_nil _).symm, hhost⟩
    · exact absurd h (copy_bad hlt hlong hbad)
    · rw [copy_round hlt hlow hhigh] at h
      by_cases hroom : host.length + host_packed.size (guest_packed.first ptr) ≤ room
      · rw [if_pos hroom] at h
        have hfits := (@Format.bytes_first guest_packed ptr hlow hhigh).1
        have hnext : (host ++ host_packed.bytes (guest_packed.first ptr)).length ≤ room := by
          rwa [List.length_append, length_packed_bytes hfits]
        obtain ⟨messages, hframes, rfl, htotal⟩ := ih (by rw [List.length_drop]; omega) hnext h
        rw [List.length_append, length_packed_bytes hfits] at htotal
        refine ⟨guest_packed.first ptr :: messages, ?_, ?_, ?_⟩
        · rw [packed_step hlow hhigh, hframes]
          rfl
        · rw [List.flatMap_cons, List.append_assoc]
        · rw [host_total_cons]
          omega
      · rw [if_neg hroom] at h
        cases h

/-- Messages that fit are copied. -/
theorem copy_frames {room : Nat} (hframes : guest_packed.frames ptr = some messages)
    (hlt : ptr.length < 2 ^ 32) {n : Nat} (hn : ptr.length < n) {host : List UInt8}
    (hroom : host.length + host_total messages ≤ room) :
    sendmsg_copy_msg_control room n host ptr ptr.length =
      .ok (host ++ messages.flatMap host_packed.bytes) := by
  induction n generalizing host ptr messages with
  | zero => exact absurd hn (Nat.not_lt_zero _)
  | succ n ih =>
    rcases guest_cases ptr with hshort | ⟨hlong, hbad⟩ | ⟨hlow, hhigh⟩
    · rw [Format.frames_short hshort] at hframes
      cases hframes
      rw [copy_short hshort, List.flatMap_nil, List.append_nil]
    · rw [@Format.frames_bad guest_packed ptr hlong hbad] at hframes
      cases hframes
    · rw [packed_step hlow hhigh] at hframes
      obtain ⟨others, hothers, rfl⟩ := Option.map_eq_some_iff.mp hframes
      have hfits := (@Format.bytes_first guest_packed ptr hlow hhigh).1
      have h12 : 12 ≤ guest_packed.len ptr := hlow
      rw [host_total_cons] at hroom
      rw [copy_round hlt hlow hhigh, if_pos (by omega),
        ih hothers (by rw [List.length_drop]; omega) (by rw [List.length_drop]; omega)
          (by rw [List.length_append, length_packed_bytes hfits]; omega),
        List.flatMap_cons, List.append_assoc]

/-- The first loop adds the sizes up, if it may go on for long enough. -/
theorem compute_frames (hframes : guest_packed.frames ptr = some messages)
    (hlt : ptr.length < 2 ^ 32) {n res : Nat} (hres : res < 2 ^ 32) :
    sendmsg_compute_msg_controllen n ptr.length ptr res = .ok ((res + host_total messages) % 2 ^ 32) ∨
      sendmsg_compute_msg_controllen n ptr.length ptr res = .error .runs_on ∧ n ≤ ptr.length := by
  induction n generalizing res ptr messages with
  | zero => exact .inr ⟨rfl, Nat.zero_le _⟩
  | succ n ih =>
    rcases guest_cases ptr with hshort | ⟨hlong, hbad⟩ | ⟨hlow, hhigh⟩
    · rw [Format.frames_short hshort] at hframes
      cases hframes
      rw [sendmsg_compute_msg_controllen, if_neg (Nat.not_le.mpr hshort)]
      exact .inl (congrArg Except.ok (Nat.mod_eq_of_lt hres).symm)
    · rw [@Format.frames_bad guest_packed ptr hlong hbad] at hframes
      cases hframes
    · rw [packed_step hlow hhigh] at hframes
      obtain ⟨others, hothers, rfl⟩ := Option.map_eq_some_iff.mp hframes
      have h12 : 12 ≤ guest_packed.len ptr := hlow
      have hdrop := List.length_drop (l := ptr) (i := guest_packed.len ptr)
      have hnext := @ih _ _ hothers (by omega)
        ((res + host_packed.size (guest_packed.first ptr)) % 2 ^ 32) (Nat.mod_lt _ (by decide))
      rw [Nat.mod_add_mod, Nat.add_assoc, ← host_total_cons] at hnext
      rw [compute_round hlt hlow hhigh]
      rcases hnext with hnext | ⟨hnext, hn⟩
      · exact .inl hnext
      · exact .inr ⟨hnext, by omega⟩

end runs

/-! ## Harmless buffers -/

theorem to_int_toNat {x : Nat} (hx : x < 2 ^ 32) : (to_int x).toNat < 2 ^ 31 := by
  unfold to_int
  split <;> omega

/-- What the loops have done when they end in their buffers. -/
theorem copied_messages {guest : control_buffer} {n : Nat} {controllen : Int} {host : List UInt8}
    (hcontrollen : guest.controllen n = .ok controllen) (hcopied : guest.copied n controllen = .ok host) :
    ∃ messages, guest_packed.frames guest.bytes = some messages ∧
      host = messages.flatMap host_packed.bytes ∧ host_total messages < 2 ^ 31 := by
  obtain ⟨messages, hframes, hhost, htotal⟩ := copy_ok guest.length_lt (Nat.zero_le _) hcopied
  refine ⟨messages, hframes, hhost, ?_⟩
  unfold control_buffer.controllen at hcontrollen
  rcases compute_frames (n := n) hframes guest.length_lt (Nat.two_pow_pos 32) with hres | ⟨hres, -⟩
  · rw [hres] at hcontrollen
    cases hcontrollen
    exact Nat.lt_of_le_of_lt ((Nat.zero_add _).symm ▸ htotal) (to_int_toNat (Nat.mod_lt _ (by decide)))
  · rw [hres] at hcontrollen
    cases hcontrollen

/-- What the loops do with messages whose sizes an `int` can hold. -/
theorem messages_copied {guest : control_buffer} {messages : List Frame}
    (hframes : guest_packed.frames guest.bytes = some messages) (htotal : host_total messages < 2 ^ 31) :
    guest.controllen (guest.bytes.length + 1) = .ok (host_total messages : Int) ∧
      guest.copied (guest.bytes.length + 1) (host_total messages) =
        .ok (messages.flatMap host_packed.bytes) := by
  constructor
  · unfold control_buffer.controllen
    rcases compute_frames (n := guest.bytes.length + 1) hframes guest.length_lt (Nat.two_pow_pos 32) with
      hres | ⟨-, hn⟩
    · rw [hres, Nat.zero_add, Nat.mod_eq_of_lt (by omega)]
      exact congrArg Except.ok (if_pos htotal)
    · exact absurd hn (Nat.not_succ_le_self _)
  · exact copy_frames hframes guest.length_lt (Nat.lt_succ_self _) (Nat.zero_add _ ▸ Nat.le_refl _)

/-- The loops are harmless for exactly the buffers whose lengths are all in range and whose translation
    has a size that an `int` can hold. -/
theorem harmless_iff_well_formed (guest : control_buffer) : guest.harmless ↔ guest.well_formed := by
  constructor
  · rintro ⟨n, controllen, host, hcontrollen, hcopied⟩
    obtain ⟨messages, hframes, -, htotal⟩ := copied_messages hcontrollen hcopied
    exact ⟨messages, hframes, htotal⟩
  · rintro ⟨messages, hframes, htotal⟩
    obtain ⟨hcontrollen, hcopied⟩ := messages_copied hframes htotal
    exact ⟨_, _, _, hcontrollen, hcopied⟩

/-- A header full of zeros. -/
def zero_header : control_buffer := ⟨List.replicate 12 0, by decide⟩

theorem zero_header_endless :
    (∀ n, zero_header.controllen n = .error .runs_on) ∧ ¬ zero_header.harmless := by
  have hround : ∀ n res, sendmsg_compute_msg_controllen n 12 (List.replicate 12 0) res =
      .error .runs_on := by
    intro n
    induction n with
    | zero => exact fun res => rfl
    | succ n ih => exact fun res => ih _
  have hcontrollen : ∀ n, zero_header.controllen n = .error .runs_on := by
    intro n
    show (sendmsg_compute_msg_controllen n 12 (List.replicate 12 0) 0).map to_int = _
    rw [hround]
    rfl
  refine ⟨hcontrollen, ?_⟩
  rintro ⟨n, controllen, host, h, -⟩
  rw [hcontrollen] at h
  cases h

end Umeq.Messages
