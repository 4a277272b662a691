import Mathlib.Algebra.Order.BigOperators.Group.List
import Mathlib.Tactic.IntervalCases
import Umeq.Messages.Control

/-! # Control messages of a guest and of its host

    The messages of the guest are aligned to 4 bytes and those of the host to 8, but the loops of the
    adapter put each message right behind the one before and look for the next one there.

    * `sent`: `sendmsg` gives the host the messages of the guest.
    * `received`: `recvmsg` gives the guest as many messages of the host as fit.
    * `fitting`: these messages.

    Both hold when each message that has another one behind it has a payload of a multiple of 8 bytes,
    since then no message needs padding.
-/

namespace Umeq.Messages

open Bytes (le ofLE)
open Frames (Frame Format)
open Umeq.Syscall (CMSGHDR_GUEST_SIZE CMSGHDR_HOST_SIZE CMSGHDR_HOST_GUEST_SIZE_DIFF)

/-! ## Layouts -/

/-- Messages of which none needs padding but the last one. -/
def unpadded (messages : List Frame) : Prop := ∀ f ∈ messages.dropLast, f.payload.length % 8 = 0

instance (messages : List Frame) : Decidable (unpadded messages) :=
  inferInstanceAs (Decidable (∀ f ∈ messages.dropLast, _))

/-! ## `sendmsg` -/

/-- The host gets a buffer of the size it is told, with these messages. -/
def control_buffer.sent (guest : control_buffer) (messages : List Frame) : Prop :=
  ∃ n controllen host, guest.controllen n = .ok controllen ∧ guest.copied n controllen = .ok host ∧
    (host.length : Int) = controllen ∧ host_rules.frames host = some messages

/-! ## `recvmsg` -/

/-- For at most so many rounds: the bytes in the buffer of the guest, which is of `room` bytes. -/
def recvmsg_copy_msg_control (room : Nat) :
    Nat → (msg_control_guest msg_control_host : List UInt8) →
      (msg_controllen_host msg_controllen_guest : Nat) → Except control_fault (List UInt8)
  | 0, _, _, _, _ => .error .runs_on
  | n + 1, msg_control_guest, msg_control_host, msg_controllen_host, msg_controllen_guest =>
    if CMSGHDR_HOST_SIZE ≤ msg_controllen_host then do
      let cmsg_len ← fetch_uint msg_control_host 0 8
      if msg_controllen_guest < wrapping_sub 64 cmsg_len CMSGHDR_HOST_GUEST_SIZE_DIFF then
        .ok msg_control_guest
      else do
        let cmsg_len_guest := wrapping_sub 64 cmsg_len CMSGHDR_HOST_GUEST_SIZE_DIFF % 2 ^ 32
        let cmsg_level ← fetch_uint msg_control_host 8 4
        let cmsg_type ← fetch_uint msg_control_host 12 4
        let msg_control_guest ← append_bytes room msg_control_guest
          (le 4 cmsg_len_guest ++ (le 4 cmsg_level ++ le 4 cmsg_type))
        let payload ← fetch msg_control_host CMSGHDR_HOST_SIZE (wrapping_sub 64 cmsg_len CMSGHDR_HOST_SIZE)
        let msg_control_guest ← append_bytes room msg_control_guest payload
        recvmsg_copy_msg_control room n msg_control_guest (msg_control_host.drop cmsg_len)
          (wrapping_sub 64 msg_controllen_host cmsg_len)
          (wrapping_sub 32 msg_controllen_guest cmsg_len_guest)
    else .ok msg_control_guest

/-- What the host left in its control buffer. -/
structure host_control where
  bytes : List UInt8
  length_lt : bytes.length < 2 ^ 64

/-- The messages that fit into so many bytes of a guest. -/
def fitting : Nat → List Frame → List Frame
  | _, [] => []
  | room, f :: messages =>
    if guest_rules.size f ≤ room then
      f :: fitting (room - (guest_rules.size f + guest_rules.gap (guest_rules.size f))) messages
    else []

/-- The guest gets a buffer of the size it is told, within the one it gave, with the messages of the
    host that fit. -/
def host_control.received (host : host_control) (room : BitVec 32) (messages : List Frame) : Prop :=
  ∃ n guest, recvmsg_copy_msg_control room.toNat n [] host.bytes host.bytes.length room.toNat = .ok guest ∧
    guest.length ≤ room.toNat ∧ guest_rules.frames guest = some (fitting room.toNat messages)

/-! ## What fits -/

/-- The bytes of a layout for a guest, without the padding at its end. -/
def guest_space : List Frame → Nat
  | [] => 0
  | [f] => guest_rules.size f
  | f :: g :: messages => guest_rules.size f + guest_rules.gap (guest_rules.size f) + guest_space (g :: messages)

theorem guest_space_pos (f : Frame) (messages : List Frame) : 0 < guest_space (f :: messages) := by
  have h : 12 ≤ guest_rules.size f := Nat.le_add_right _ _
  cases messages with
  | nil => exact Nat.lt_of_lt_of_le (by decide) h
  | cons g messages =>
    rw [guest_space]
    omega

theorem fitting_cons {room : Nat} {f : Frame} {messages : List Frame} (h : guest_rules.size f ≤ room) :
    fitting room (f :: messages) =
      f :: fitting (room - (guest_rules.size f + guest_rules.gap (guest_rules.size f))) messages := if_pos h

theorem fitting_full {room : Nat} {f : Frame} {messages : List Frame} (h : ¬ guest_rules.size f ≤ room) :
    fitting room (f :: messages) = [] := if_neg h

/-- The messages that fit are the longest of the prefixes that do. -/
theorem fitting_longest {room : Nat} {messages first : List Frame} (h : first <+: messages) :
    guest_space first ≤ room ↔ first <+: fitting room messages := by
  induction messages generalizing room first with
  | nil =>
    rw [List.prefix_nil.mp h]
    exact ⟨fun _ => List.nil_prefix, fun _ => Nat.zero_le _⟩
  | cons f messages ih =>
    cases first with
    | nil => exact ⟨fun _ => List.nil_prefix, fun _ => Nat.zero_le _⟩
    | cons f' first =>
      obtain ⟨rfl, hfirst⟩ := List.cons_prefix_cons.mp h
      by_cases hroom : guest_rules.size f' ≤ room
      · rw [fitting_cons hroom, List.cons_prefix_cons, ← ih hfirst]
        cases first with
        | nil => exact ⟨fun _ => ⟨rfl, Nat.zero_le _⟩, fun _ => hroom⟩
        | cons g first =>
          have hpos := guest_space_pos g first
          rw [guest_space, and_iff_right rfl]
          omega
      · rw [fitting_full hroom]
        have hspace : ¬ guest_space (f' :: first) ≤ room := by
          cases first with
          | nil => exact hroom
          | cons g first =>
            rw [guest_space]
            omega
        exact ⟨fun h => absurd h hspace, fun h => absurd (List.prefix_nil.mp h) (List.cons_ne_nil _ _)⟩

/-! ## One message of the host -/

section recv

variable {f : Frame} {rest : List UInt8}

theorem guest_size (f : Frame) : guest_rules.size f + 4 = host_rules.size f := by
  show 12 + _ + 4 = 16 + _
  omega

/-- The tag of the first message, as it is copied. -/
theorem host_tag (hf : host_rules.Fits f) :
    le 4 (ofLE (((host_rules.bytes f ++ rest).drop 8).take 4)) ++
      le 4 (ofLE (((host_rules.bytes f ++ rest).drop 12).take 4)) = f.tag := by
  have hlength := Format.length_bytes hf
  have htag := congrArg Frame.tag (Format.first_bytes hf rest)
  have h16 : 16 ≤ host_rules.size f := Nat.le_add_right _ _
  refine (@two_fields _ 8 (by rw [List.length_append]; omega)).trans ?_
  rw [← htag]
  show _ = ((host_rules.bytes f ++ rest).take (8 + 8)).drop 8
  rw [List.drop_take]

/-- A message is copied if it fits, and then nothing of it is left to read. -/
theorem recv_round {room rem n : Nat} {written : List UInt8} (hf : host_rules.Fits f)
    (hlt : (host_rules.bytes f ++ rest).length < 2 ^ 64) (hrem : rem < 2 ^ 32)
    (hroom : written.length + rem = room) :
    recvmsg_copy_msg_control room (n + 1) written (host_rules.bytes f ++ rest)
        (host_rules.bytes f ++ rest).length rem =
      if guest_rules.size f ≤ rem then
        recvmsg_copy_msg_control room n (written ++ guest_rules.bytes f) rest rest.length
          (rem - guest_rules.size f)
      else .ok written := by
  have hbytes := Format.length_bytes hf
  have hsize := guest_size f
  have h12 : 12 ≤ guest_rules.size f := Nat.le_add_right _ _
  have hlength : (host_rules.bytes f ++ rest).length = host_rules.size f + rest.length := by
    rw [List.length_append, hbytes]
  have hlong : CMSGHDR_HOST_SIZE ≤ (host_rules.bytes f ++ rest).length := by
    rw [hlength]
    show 16 ≤ _
    omega
  have hlen : fetch_uint (host_rules.bytes f ++ rest) 0 8 = .ok (host_rules.size f) := by
    rw [fetch_uint_ok (Nat.le_trans (by decide) hlong)]
    exact congrArg Except.ok (Format.len_bytes hf rest)
  have hguest : wrapping_sub 64 (host_rules.size f) CMSGHDR_HOST_GUEST_SIZE_DIFF = guest_rules.size f := by
    rw [wrapping_sub_le (by show 4 ≤ _; omega) (by omega)]
    show host_rules.size f - 4 = _
    omega
  have hlevel := @fetch_uint_ok (host_rules.bytes f ++ rest) 8 4 (Nat.le_trans (by decide) hlong)
  have htype := @fetch_uint_ok (host_rules.bytes f ++ rest) 12 4 (Nat.le_trans (by decide) hlong)
  have hpayload : fetch (host_rules.bytes f ++ rest) CMSGHDR_HOST_SIZE
      (wrapping_sub 64 (host_rules.size f) CMSGHDR_HOST_SIZE) = .ok f.payload := by
    have h := congrArg Frame.payload (Format.first_bytes hf rest)
    have h16 : CMSGHDR_HOST_SIZE ≤ host_rules.size f := Nat.le_add_right _ _
    rw [wrapping_sub_le h16 (by omega), fetch_ok (by rw [hlength]; omega), ← List.drop_take]
    rw [Format.first, Format.len_bytes hf] at h
    exact congrArg Except.ok h
  rw [recvmsg_copy_msg_control, if_pos hlong, hlen, ok_bind, hguest]
  by_cases hfits : guest_rules.size f ≤ rem
  · have hheader : (le 4 (guest_rules.size f) ++ f.tag).length = 12 := by
      rw [List.length_append, Bytes.length_le, hf.tag]
      rfl
    have hsum : guest_rules.size f = 12 + f.payload.length := rfl
    rw [if_neg (Nat.not_lt.mpr hfits), if_pos hfits]
    dsimp only
    rw [Nat.mod_eq_of_lt (Nat.lt_of_le_of_lt hfits hrem), hlevel, ok_bind, htype, ok_bind, host_tag hf,
      append_ok (by rw [hheader]; omega), ok_bind, hpayload, ok_bind,
      append_ok (by rw [List.length_append, hheader]; omega), ok_bind, List.drop_left' hbytes,
      wrapping_sub_le (by omega) hlt, wrapping_sub_le hfits hrem, hlength, Nat.add_sub_cancel_left,
      List.append_assoc, List.append_assoc]
    rfl
  · rw [if_pos (Nat.not_le.mp hfits), if_neg hfits]

end recv

theorem fits_guest {f : Frame} (hf : host_rules.Fits f) (h : guest_rules.size f < 2 ^ 32) :
    guest_rules.Fits f := ⟨hf.tag, h⟩

/-! ## Messages without padding -/

section unpadded

variable {f : Frame} {messages : List Frame}

theorem host_gap (h : f.payload.length % 8 = 0) : host_rules.gap (host_rules.size f) = 0 := by
  show (8 - (16 + f.payload.length) % 8) % 8 = 0
  omega

theorem guest_gap (h : f.payload.length % 8 = 0) : guest_rules.gap (guest_rules.size f) = 0 := by
  show (4 - (12 + f.payload.length) % 4) % 4 = 0
  omega

theorem fitting_dropLast (room : Nat) (messages : List Frame) :
    (fitting room messages).dropLast <+: fitting room messages.dropLast := by
  induction messages generalizing room with
  | nil => exact List.prefix_rfl
  | cons f messages ih =>
    by_cases hroom : guest_rules.size f ≤ room
    · rw [fitting_cons hroom]
      cases messages with
      | nil => exact List.nil_prefix
      | cons g messages =>
        have hrest := ih (room - (guest_rules.size f + guest_rules.gap (guest_rules.size f)))
        rw [List.dropLast_cons_of_ne_nil (List.cons_ne_nil _ _), fitting_cons hroom]
        cases hfitting : fitting (room - (guest_rules.size f + guest_rules.gap (guest_rules.size f)))
            (g :: messages) with
        | nil => exact List.nil_prefix
        | cons h others =>
          rw [hfitting] at hrest
          rw [List.dropLast_cons_of_ne_nil (List.cons_ne_nil _ _)]
          exact List.cons_prefix_cons.mpr ⟨rfl, hrest⟩
    · rw [fitting_full hroom]
      exact List.nil_prefix

theorem fitting_first (room : Nat) (messages : List Frame) : fitting room messages <+: messages := by
  induction messages generalizing room with
  | nil => exact List.prefix_rfl
  | cons f messages ih =>
    rw [fitting]
    split
    · exact List.cons_prefix_cons.mpr ⟨rfl, ih _⟩
    · exact List.nil_prefix

/-- The messages that fit take no more bytes than there are. -/
theorem fitting_size (room : Nat) (messages : List Frame) :
    ((fitting room messages).map guest_rules.size).sum ≤ room := by
  induction messages generalizing room with
  | nil => exact Nat.zero_le _
  | cons f messages ih =>
    rw [fitting]
    split
    · have hrest := ih (room - (guest_rules.size f + guest_rules.gap (guest_rules.size f)))
      rw [List.map_cons, List.sum_cons]
      omega
    · exact Nat.zero_le _

end unpadded

/-! ## The whole buffer -/

theorem recv_short {room n rem : Nat} {written ptr : List UInt8} (h : ptr.length < CMSGHDR_HOST_SIZE) :
    recvmsg_copy_msg_control room (n + 1) written ptr ptr.length rem = .ok written := by
  rw [recvmsg_copy_msg_control, if_neg (Nat.not_le.mpr h)]

/-- The messages that fit are copied, if those in front of others need no padding. -/
theorem recv_laid {messages : List Frame} {ptr : List UInt8} (hlaid : host_rules.Laid messages ptr)
    (hlt : ptr.length < 2 ^ 64) {room rem n : Nat} (hn : ptr.length < n) {written : List UInt8}
    (hrem : rem < 2 ^ 32) (hroom : written.length + rem = room)
    (hunpadded : ∀ f ∈ fitting rem messages.dropLast, f.payload.length % 8 = 0) :
    recvmsg_copy_msg_control room n written ptr ptr.length rem =
      .ok (written ++ (fitting rem messages).flatMap guest_rules.bytes) := by
  obtain ⟨n, rfl⟩ : ∃ m, n = m + 1 := Nat.exists_eq_add_one.mpr (by omega)
  induction hlaid generalizing n rem written with
  | none =>
    rw [recv_short (by decide)]
    exact congrArg Except.ok (List.append_nil _).symm
  | last f pad hf hpad =>
    have hbytes := Format.length_bytes hf
    have h16 : 16 ≤ host_rules.size f := Nat.le_add_right _ _
    have hgap := host_rules.gap_lt (host_rules.size f)
    rw [recv_round hf hlt hrem hroom]
    by_cases hfits : guest_rules.size f ≤ rem
    · rw [List.length_append] at hn
      obtain ⟨n, rfl⟩ : ∃ m, n = m + 1 := Nat.exists_eq_add_one.mpr (by omega)
      rw [if_pos hfits, fitting_cons hfits, recv_short (Nat.lt_trans (Nat.lt_of_le_of_lt hpad hgap) (by decide))]
      simp [fitting]
    · rw [if_neg hfits, fitting_full hfits, List.flatMap_nil, List.append_nil]
  | next f g messages pad buf hf hpad hrest ih =>
    have hbytes := Format.length_bytes hf
    have h16 : 16 ≤ host_rules.size f := Nat.le_add_right _ _
    rw [recv_round hf hlt hrem hroom]
    by_cases hfits : guest_rules.size f ≤ rem
    · rw [List.dropLast_cons_of_ne_nil (List.cons_ne_nil _ _), fitting_cons hfits] at hunpadded
      have hf8 := hunpadded f List.mem_cons_self
      rw [host_gap hf8] at hpad
      obtain rfl := List.length_eq_zero_iff.mp hpad
      rw [List.nil_append, List.length_append] at hn hlt
      obtain ⟨n, rfl⟩ : ∃ m, n = m + 1 := Nat.exists_eq_add_one.mpr (by omega)
      rw [guest_gap hf8, Nat.add_zero] at hunpadded
      have hwritten : (written ++ guest_rules.bytes f).length + (rem - guest_rules.size f) = room := by
        rw [List.length_append, Format.length_bytes (fits_guest hf (Nat.lt_of_le_of_lt hfits hrem))]
        omega
      rw [if_pos hfits, fitting_cons hfits, guest_gap hf8, List.nil_append,
        ih (by omega) (by omega) hwritten (fun h hh => hunpadded h (List.mem_cons_of_mem f hh)) n (by omega),
        List.flatMap_cons, List.append_assoc]
      rfl
    · rw [if_neg hfits, fitting_full hfits, List.flatMap_nil, List.append_nil]

/-- Messages without padding are received. -/
theorem received_of_unpadded {host : host_control} {messages : List Frame}
    (hlaid : host_rules.Laid messages host.bytes) {room : BitVec 32}
    (hunpadded : ∀ f ∈ fitting room.toNat messages.dropLast, f.payload.length % 8 = 0) :
    host.received room messages := by
  have hrecv := @recv_laid _ _ hlaid host.length_lt _ _ _ (Nat.lt_succ_self _) [] room.isLt (Nat.zero_add _)
    hunpadded
  have hsize := fitting_size room.toNat messages
  have hfits : ∀ f ∈ fitting room.toNat messages, guest_rules.Fits f := by
    intro f hf
    have hle : guest_rules.size f ≤ ((fitting room.toNat messages).map guest_rules.size).sum :=
      List.single_le_sum (fun _ _ => Nat.zero_le _) _ (List.mem_map_of_mem hf)
    exact fits_guest (Format.laid_fits hlaid f ((fitting_first _ _).subset hf)) (by omega)
  have hguest : guest_rules.Laid (fitting room.toNat messages)
      ((fitting room.toNat messages).flatMap guest_rules.bytes) :=
    Format.laid_flatMap hfits fun f hf => guest_gap (hunpadded f ((fitting_dropLast _ _).subset hf))
  refine ⟨_, _, hrecv, ?_, Format.frames_laid (by decide) hguest⟩
  have hlength : ((fitting room.toNat messages).flatMap guest_rules.bytes).length =
      ((fitting room.toNat messages).map guest_rules.size).sum := by
    rw [List.length_flatMap, List.map_congr_left fun f hf => Format.length_bytes (hfits f hf)]
  exact hlength ▸ hsize

/-! ## The messages of a guest -/

/-- The loops of `sendmsg` find messages without padding. -/
theorem packed_laid {messages : List Frame} {ptr : List UInt8} (hlaid : guest_rules.Laid messages ptr)
    (hunpadded : unpadded messages) : guest_packed.frames ptr = some messages := by
  induction hlaid with
  | none => rfl
  | last f pad hf hpad =>
    have hgap := guest_rules.gap_lt (guest_rules.size f)
    have hcons := @Format.frames_cons guest_packed f ⟨hf.tag, hf.size⟩ pad
    have hshort : guest_packed.frames (pad.drop 0) = some [] :=
      Format.frames_short (Nat.lt_trans (Nat.lt_of_le_of_lt hpad hgap) (by decide))
    rw [gap_packed, hshort] at hcons
    exact hcons
  | next f g messages pad buf hf hpad hrest ih =>
    have hf8 := hunpadded f List.mem_cons_self
    rw [guest_gap hf8] at hpad
    obtain rfl := List.length_eq_zero_iff.mp hpad
    have hcons := @Format.frames_cons guest_packed f ⟨hf.tag, hf.size⟩ buf
    rw [gap_packed, List.drop_zero, ih fun h hh => hunpadded h (List.mem_cons_of_mem f hh)] at hcons
    exact hcons

/-! ## Messages of a guest that need padding

    The host looks for a message behind the padding of the one before, inside of the header that the
    loop has put there. With `q` bytes of the guest's padding in front of it this header has been read
    in a wrong place as well. -/

/-- The host's padding is as long as the guest's. -/
theorem misread_near {q pad size : Nat} (hq : 1 ≤ q ∧ q ≤ 3) (hpad : pad < 256 ^ q) :
    (pad + 256 ^ q * (size % 256 ^ (4 - q)) + 4) / 256 ^ q +
      256 ^ (8 - q) * (size / 256 ^ (4 - q)) ≠ size + 4 := by
  obtain ⟨hlow, hhigh⟩ := hq
  interval_cases q <;> omega

/-- The host's padding is four bytes longer. -/
theorem misread_far {q pad size y : Nat} (hq : q ≤ 3)
    (hlen : pad + 256 ^ q * (size % 256 ^ (4 - q)) + 4 < 2 ^ 31) :
    (pad + 256 ^ q * (size % 256 ^ (4 - q)) + 4) / 256 ^ (q + 4) +
      256 ^ (4 - q) * (size / 256 ^ (4 - q) + 256 ^ q * y) ≠ size + 4 := by
  interval_cases q <;> omega

/-- The paddings of the two layouts. -/
theorem gaps {p : Nat} (hp : p % 8 ≠ 0) :
    guest_rules.gap (12 + p) ≤ 3 ∧
      (1 ≤ guest_rules.gap (12 + p) ∧ host_rules.gap (16 + p) = guest_rules.gap (12 + p) ∨
        host_rules.gap (16 + p) = guest_rules.gap (12 + p) + 4) := by
  show (4 - (12 + p) % 4) % 4 ≤ 3 ∧
    (1 ≤ (4 - (12 + p) % 4) % 4 ∧ (8 - (16 + p) % 8) % 8 = (4 - (12 + p) % 4) % 4 ∨
      (8 - (16 + p) % 8) % 8 = (4 - (12 + p) % 4) % 4 + 4)
  omega

/-- The host does not find the length of the next message. -/
theorem sent_misread {p : Nat} (hp : p % 8 ≠ 0) {g : Frame} {pad ptr rest : List UInt8}
    (hpad : pad.length = guest_rules.gap (12 + p)) (hg : guest_rules.Fits g)
    (hptr : ptr = pad ++ (guest_rules.bytes g ++ rest))
    (hlow : CMSGHDR_GUEST_SIZE ≤ guest_packed.len ptr) (hhigh : guest_packed.len ptr ≤ ptr.length)
    (htotal : host_packed.size (guest_packed.first ptr) < 2 ^ 31) (more : List UInt8) :
    host_rules.len ((host_packed.bytes (guest_packed.first ptr) ++ more).drop (host_rules.gap (16 + p))) ≠
      host_rules.size g := by
  obtain ⟨hq, hgap⟩ := gaps hp
  rw [← hpad] at hq hgap
  have hq4 : pad.length ≤ 4 := by omega
  have hsize : host_packed.size (guest_packed.first ptr) = guest_packed.len ptr + 4 := by
    rw [← (@Format.bytes_first guest_packed ptr hlow hhigh).2.2]
    show 16 + _ = 12 + _ + 4
    omega
  have hpushed : guest_rules.size g / 256 ^ (4 - pad.length) % 256 ^ pad.length =
      guest_rules.size g / 256 ^ (4 - pad.length) := by
    refine Nat.mod_eq_of_lt ?_
    rw [Nat.div_lt_iff_lt_mul (Nat.pow_pos (by decide)), ← Nat.pow_add, Nat.add_sub_cancel' hq4]
    exact hg.size
  -- the header as the loop has read it
  have hlen : guest_packed.len ptr =
      ofLE pad + 256 ^ pad.length * (guest_rules.size g % 256 ^ (4 - pad.length)) := by
    rw [hptr, Format.bytes, List.append_assoc]
    exact Bytes.ofLE_padded hq4 _
  have htag : (guest_packed.first ptr).tag =
      (le pad.length (guest_rules.size g / 256 ^ (4 - pad.length)) ++ (g.tag ++ g.payload ++ rest)).take 8 := by
    show (ptr.take (4 + 8)).drop 4 = _
    rw [List.drop_take, Nat.add_sub_cancel_left, hptr, Format.bytes, List.append_assoc]
    exact congrArg (List.take 8) (Bytes.drop_padded hq4 _)
  -- the length as the host reads it
  have hread : host_rules.len
      ((host_packed.bytes (guest_packed.first ptr) ++ more).drop (host_rules.gap (16 + p))) =
      (guest_packed.len ptr + 4) / 256 ^ host_rules.gap (16 + p) + 256 ^ (8 - host_rules.gap (16 + p)) *
        ofLE ((le pad.length (guest_rules.size g / 256 ^ (4 - pad.length)) ++
          (g.tag ++ g.payload ++ rest)).take (host_rules.gap (16 + p))) := by
    have hgap8 : host_rules.gap (16 + p) ≤ 8 := by omega
    have h := @Bytes.ofLE_shifted 8 _ _ hgap8 (show host_packed.size (guest_packed.first ptr) < 256 ^ 8 by omega)
      ((guest_packed.first ptr).tag ++ (guest_packed.first ptr).payload ++ more)
    rw [List.append_assoc (guest_packed.first ptr).tag, List.take_append_of_le_length, htag, List.take_take,
      Nat.min_eq_left hgap8, hsize] at h
    · rw [Format.bytes, List.append_assoc, List.append_assoc, htag]
      show ofLE (((le 8 (host_packed.size (guest_packed.first ptr)) ++ _).drop _).take 8) = _
      rw [hsize]
      exact h
    · rw [(@Format.bytes_first guest_packed ptr hlow hhigh).1.tag]
      exact hgap8
  rw [hread]
  show _ ≠ 16 + g.payload.length
  rw [show 16 + g.payload.length = guest_rules.size g + 4 by show _ = 12 + _ + 4; omega, hlen]
  rcases hgap with ⟨hpos, hgap⟩ | hgap
  · rw [hgap, List.take_left' (Bytes.length_le _ _), Bytes.ofLE_le, hpushed]
    exact misread_near ⟨hpos, hq⟩ (Bytes.ofLE_lt pad)
  · have htake : (le pad.length (guest_rules.size g / 256 ^ (4 - pad.length)) ++
        (g.tag ++ g.payload ++ rest)).take (pad.length + 4) =
        le pad.length (guest_rules.size g / 256 ^ (4 - pad.length)) ++
          (g.tag ++ g.payload ++ rest).take 4 := by
      rw [List.take_append, Bytes.length_le, Nat.add_sub_cancel_left,
        List.take_of_length_le (by rw [Bytes.length_le]; omega)]
    rw [hgap, htake, Bytes.ofLE_append, Bytes.ofLE_le, hpushed, Bytes.length_le,
      show 8 - (pad.length + 4) = 4 - pad.length by omega]
    exact misread_far hq (by rw [← hlen, ← hsize]; exact htotal)

/-- Messages that the host gets need no padding. -/
theorem unpadded_of_frames {messages found : List Frame} {ptr : List UInt8}
    (hlaid : guest_rules.Laid messages ptr) (hlt : ptr.length < 2 ^ 32)
    (hfound : guest_packed.frames ptr = some found) (htotal : host_total found < 2 ^ 31)
    (hhost : host_rules.frames (found.flatMap host_packed.bytes) = some messages) :
    unpadded messages := by
  induction hlaid generalizing found with
  | none => exact fun f hf => nomatch hf
  | last f pad hf hpad => exact fun f hf => nomatch hf
  | next f g messages pad buf hf hpad hrest ih =>
    have hcons := @Format.frames_cons guest_packed f ⟨hf.tag, hf.size⟩ (pad ++ buf)
    rw [gap_packed, List.drop_zero] at hcons
    have hframes := hcons.symm.trans hfound
    obtain ⟨found, hnext, rfl⟩ := Option.map_eq_some_iff.mp hframes
    rw [host_total_cons] at htotal
    have hfirst : host_rules.frames (found.flatMap host_packed.bytes |>.drop
        (host_rules.gap (host_rules.size f))) = some (g :: messages) := by
      have h := @Format.frames_cons host_rules f ⟨hf.tag, (fits_host ⟨hf.tag, hf.size⟩).size⟩ (found.flatMap host_packed.bytes)
      have hmap := h.symm.trans hhost
      obtain ⟨others, hothers, hcons⟩ := Option.map_eq_some_iff.mp hmap
      rw [hothers, (List.cons.inj hcons).2]
    by_cases hf8 : f.payload.length % 8 = 0
    · rw [guest_gap hf8] at hpad
      obtain rfl := List.length_eq_zero_iff.mp hpad
      rw [host_gap hf8, List.drop_zero] at hfirst
      have hothers := ih (by rw [List.length_append, List.length_append] at hlt; omega) hnext (by omega) hfirst
      intro h hh
      rw [List.dropLast_cons_of_ne_nil (List.cons_ne_nil _ _)] at hh
      rcases List.mem_cons.mp hh with rfl | hh
      · exact hf8
      · exact hothers h hh
    · obtain ⟨hg, rest, hbuf⟩ := Format.laid_cons hrest
      rcases guest_cases (pad ++ buf) with hshort | ⟨hlong, hbad⟩ | ⟨hlow, hhigh⟩
      · rw [hbuf, List.length_append, List.length_append, Format.length_bytes hg] at hshort
        have h12 : CMSGHDR_GUEST_SIZE ≤ guest_rules.size g := Nat.le_add_right _ _
        omega
      · rw [@Format.frames_bad guest_packed _ hlong hbad] at hnext
        cases hnext
      · rw [packed_step hlow hhigh] at hnext
        obtain ⟨others, -, rfl⟩ := Option.map_eq_some_iff.mp hnext
        rw [host_total_cons] at htotal
        exact absurd (Format.len_of_frames hfirst)
          (sent_misread hf8 hpad hg (congrArg (pad ++ ·) hbuf) hlow hhigh (by omega) _)

/-- The messages of a guest reach the host exactly when none but the last needs padding and an `int`
    can hold their size. -/
theorem sent_iff {guest : control_buffer} {messages : List Frame}
    (hlaid : guest_rules.Laid messages guest.bytes) :
    guest.sent messages ↔ unpadded messages ∧ host_total messages < 2 ^ 31 := by
  constructor
  · rintro ⟨n, controllen, host, hcontrollen, hcopied, -, hframes⟩
    obtain ⟨found, hfound, rfl, htotal⟩ := copied_messages hcontrollen hcopied
    have hunpadded := unpadded_of_frames hlaid guest.length_lt hfound htotal hframes
    rw [packed_laid hlaid hunpadded] at hfound
    cases hfound
    exact ⟨hunpadded, htotal⟩
  · rintro ⟨hunpadded, htotal⟩
    obtain ⟨hcontrollen, hcopied⟩ := messages_copied (packed_laid hlaid hunpadded) htotal
    have hfits : ∀ f ∈ messages, host_packed.Fits f := fun f hf =>
      fits_host ⟨(Format.laid_fits hlaid f hf).tag, (Format.laid_fits hlaid f hf).size⟩
    have hhost : host_rules.Laid messages (messages.flatMap host_rules.bytes) :=
      Format.laid_flatMap (fun f hf => ⟨(hfits f hf).tag, (hfits f hf).size⟩)
        fun f hf => host_gap (hunpadded f hf)
    refine ⟨_, _, _, hcontrollen, hcopied, ?_, Format.frames_laid (by decide) hhost⟩
    rw [List.length_flatMap, List.map_congr_left fun f hf => Format.length_bytes (hfits f hf)]
    rfl

/-! ## Messages of a host that need padding -/

theorem bind_ok {α β : Type} {x : Except control_fault α} {f : α → Except control_fault β} {b : β}
    (h : (x >>= f) = .ok b) : ∃ a, x = .ok a ∧ f a = .ok b := by
  cases x with
  | error e => cases h
  | ok a => exact ⟨a, rfl, h⟩

theorem append_bytes_ok {room : Nat} {written bytes r : List UInt8}
    (h : append_bytes room written bytes = .ok r) : r = written ++ bytes := by
  unfold append_bytes at h
  split at h
  · cases h
    rfl
  · cases h

/-- A round that goes well: it is the last one, or it has written a header and a payload. -/
theorem recv_ok {room n rem_host rem : Nat} {written ptr r : List UInt8}
    (h : recvmsg_copy_msg_control room (n + 1) written ptr rem_host rem = .ok r) :
    rem_host < CMSGHDR_HOST_SIZE ∧ r = written ∨
      CMSGHDR_HOST_SIZE ≤ rem_host ∧ ∃ len, fetch_uint ptr 0 8 = .ok len ∧
        (rem < wrapping_sub 64 len CMSGHDR_HOST_GUEST_SIZE_DIFF ∧ r = written ∨
          wrapping_sub 64 len CMSGHDR_HOST_GUEST_SIZE_DIFF ≤ rem ∧ ∃ level type payload,
            fetch_uint ptr 8 4 = .ok level ∧ fetch_uint ptr 12 4 = .ok type ∧
            fetch ptr CMSGHDR_HOST_SIZE (wrapping_sub 64 len CMSGHDR_HOST_SIZE) = .ok payload ∧
            recvmsg_copy_msg_control room n
              (written ++ (le 4 (wrapping_sub 64 len CMSGHDR_HOST_GUEST_SIZE_DIFF % 2 ^ 32) ++
                (le 4 level ++ le 4 type)) ++ payload) (ptr.drop len) (wrapping_sub 64 rem_host len)
              (wrapping_sub 32 rem (wrapping_sub 64 len CMSGHDR_HOST_GUEST_SIZE_DIFF % 2 ^ 32)) =
                .ok r) := by
  rw [recvmsg_copy_msg_control] at h
  by_cases hlong : CMSGHDR_HOST_SIZE ≤ rem_host
  · rw [if_pos hlong] at h
    obtain ⟨len, hlen, h⟩ := bind_ok h
    by_cases hfits : rem < wrapping_sub 64 len CMSGHDR_HOST_GUEST_SIZE_DIFF
    · rw [if_pos hfits] at h
      cases h
      exact .inr ⟨hlong, len, hlen, .inl ⟨hfits, rfl⟩⟩
    rw [if_neg hfits] at h
    obtain ⟨level, hlevel, h⟩ := bind_ok h
    obtain ⟨type, htype, h⟩ := bind_ok h
    obtain ⟨header, hheader, h⟩ := bind_ok h
    obtain ⟨payload, hpayload, h⟩ := bind_ok h
    obtain ⟨guest, hguest, h⟩ := bind_ok h
    rw [append_bytes_ok hguest, append_bytes_ok hheader] at h
    exact .inr ⟨hlong, len, hlen, .inr ⟨Nat.not_lt.mp hfits, level, type, payload, hlevel, htype, hpayload, h⟩⟩
  · rw [if_neg hlong] at h
    cases h
    exact .inl ⟨Nat.not_le.mp hlong, rfl⟩

/-- What has been written stays. -/
theorem recv_extends {room n rem_host rem : Nat} {written ptr r : List UInt8}
    (h : recvmsg_copy_msg_control room n written ptr rem_host rem = .ok r) :
    ∃ more, r = written ++ more := by
  induction n generalizing written ptr rem_host rem with
  | zero => cases h
  | succ n ih =>
    rcases recv_ok h with ⟨-, rfl⟩ | ⟨-, len, -, ⟨-, rfl⟩ | ⟨-, level, type, payload, -, -, -, h⟩⟩
    · exact ⟨[], (List.append_nil _).symm⟩
    · exact ⟨[], (List.append_nil _).symm⟩
    · obtain ⟨more, rfl⟩ := ih h
      exact ⟨_, by rw [List.append_assoc, List.append_assoc]⟩

/-- The host's padding is as long as the guest's. -/
theorem garbage_near {q pad size : Nat} (hq : 1 ≤ q ∧ q ≤ 3) (hsize : 4 ≤ size ∧ size < 2 ^ 32)
    (hlen : 4 ≤ pad + 256 ^ q * (size % 256 ^ (8 - q))) (hpad : pad < 256 ^ q) :
    (pad + 256 ^ q * (size % 256 ^ (8 - q)) - 4) / 256 ^ q +
      256 ^ (4 - q) * (size / 256 ^ (8 - q) % 256 ^ q) ≠ size - 4 := by
  obtain ⟨hlow, hhigh⟩ := hq
  interval_cases q <;> omega

/-- The host's padding is four bytes longer. -/
theorem garbage_far {q pad size : Nat} (hq : q ≤ 3) (hsize : 4 ≤ size ∧ size < 2 ^ 32)
    (hlen : 4 ≤ pad + 256 ^ (q + 4) * (size % 256 ^ (4 - q)))
    (hlt : pad + 256 ^ (q + 4) * (size % 256 ^ (4 - q)) - 4 < 2 ^ 32) (hpad : pad < 256 ^ (q + 4)) :
    (pad + 256 ^ (q + 4) * (size % 256 ^ (4 - q)) - 4) / 256 ^ q +
      256 ^ (4 - q) * (size / 256 ^ (4 - q) % 256 ^ q) ≠ size - 4 := by
  interval_cases q
  · -- the whole length is in the upper half
    have hmod : size % 256 ^ (4 - 0) = size := Nat.mod_eq_of_lt hsize.2
    rw [hmod] at hlt
    omega
  all_goals omega

/-- The guest does not find the length of the next message. -/
theorem recv_misread {p : Nat} (hp : p % 8 ≠ 0) {g : Frame} {pad ptr rest r : List UInt8}
    {messages : List Frame} (hpad : pad.length = host_rules.gap (16 + p)) (hg : host_rules.Fits g)
    (hptr : ptr = pad ++ (host_rules.bytes g ++ rest)) {room rem rem_host n : Nat} {written : List UInt8}
    (hsize : host_rules.size g < 2 ^ 32) (hrem : rem < 2 ^ 32)
    (hok : recvmsg_copy_msg_control room n written ptr rem_host rem = .ok r) :
    guest_rules.frames ((r.drop written.length).drop (guest_rules.gap (12 + p))) ≠ some (g :: messages) := by
  obtain ⟨hq, hgap⟩ := gaps hp
  rw [← hpad] at hgap
  have hg8 : pad.length ≤ 8 := by omega
  intro hframes
  cases n with
  | zero => cases hok
  | succ n =>
    -- nothing has been copied
    have hnone : guest_rules.frames ((List.drop written.length written).drop (guest_rules.gap (12 + p))) ≠
        some (g :: messages) := by
      rw [List.drop_length, List.drop_nil, Format.frames_short (by decide)]
      exact nofun
    rcases recv_ok hok with
      ⟨-, rfl⟩ | ⟨-, len, hlen, ⟨-, rfl⟩ | ⟨hfits, level, type, payload, hlevel, htype, -, h⟩⟩
    · exact hnone hframes
    · exact hnone hframes
    obtain ⟨more, rfl⟩ := recv_extends h
    have hlong : 16 ≤ ptr.length := by
      have h16 : 16 ≤ host_rules.size g := Nat.le_add_right _ _
      rw [hptr, List.length_append, List.length_append, Format.length_bytes hg]
      omega
    -- the header as the loop has read it
    have hread : len = ofLE pad + 256 ^ pad.length * (host_rules.size g % 256 ^ (8 - pad.length)) := by
      rw [fetch_uint_ok (Nat.le_trans (by decide) hlong)] at hlen
      cases hlen
      rw [hptr, Format.bytes, List.append_assoc]
      exact Bytes.ofLE_padded hg8 _
    have htag : le 4 level ++ le 4 type =
        (le pad.length (host_rules.size g / 256 ^ (8 - pad.length)) ++ (g.tag ++ g.payload ++ rest)).take 8 := by
      rw [fetch_uint_ok (Nat.le_trans (by decide) hlong)] at hlevel htype
      cases hlevel
      cases htype
      refine (@two_fields ptr 8 hlong).trans ?_
      rw [hptr, Format.bytes, List.append_assoc]
      exact congrArg (List.take 8) (Bytes.drop_padded hg8 _)
    have hlt : len < 2 ^ 64 := by
      rw [fetch_uint_ok (Nat.le_trans (by decide) hlong)] at hlen
      cases hlen
      have h := Bytes.ofLE_lt ((ptr.drop 0).take 8)
      rw [List.drop_zero, List.length_take, Nat.min_eq_left (by omega)] at h
      exact h
    have hfour : 4 ≤ len := by
      by_contra hfour
      rw [wrapping_sub_gt (show len < CMSGHDR_HOST_GUEST_SIZE_DIFF by exact Nat.not_le.mp hfour) (by decide)]
        at hfits
      have hdiff : CMSGHDR_HOST_GUEST_SIZE_DIFF = 4 := rfl
      omega
    have hwritten : wrapping_sub 64 len CMSGHDR_HOST_GUEST_SIZE_DIFF = len - 4 := wrapping_sub_le hfour hlt
    rw [hwritten] at hfits hframes
    rw [Nat.mod_eq_of_lt (by omega)] at hframes
    -- the length as the guest reads it
    have hguest := Format.len_of_frames hframes
    have hq4 : guest_rules.gap (12 + p) ≤ 4 := by omega
    have hqpad : guest_rules.gap (12 + p) ≤ pad.length := by omega
    have hpushed : ((le 4 level ++ le 4 type) ++ (payload ++ more)).take (guest_rules.gap (12 + p)) =
        le (guest_rules.gap (12 + p)) (host_rules.size g / 256 ^ (8 - pad.length)) := by
      rw [List.take_append_of_le_length (by rw [List.length_append, Bytes.length_le, Bytes.length_le]; omega),
        htag, List.take_take, Nat.min_eq_left (by omega),
        List.take_append_of_le_length (by rw [Bytes.length_le]; exact hqpad), Bytes.take_le hqpad]
    have hshifted := @Bytes.ofLE_shifted 4 _ (len - 4) hq4 (by omega)
      ((le 4 level ++ le 4 type) ++ (payload ++ more))
    rw [hpushed, Bytes.ofLE_le] at hshifted
    have hsum : guest_rules.size g = host_rules.size g - 4 := by
      have h := guest_size g
      omega
    have hfield : guest_rules.len ((List.drop written.length
        (written ++ (le 4 (len - 4) ++ (le 4 level ++ le 4 type)) ++ payload ++ more)).drop
          (guest_rules.gap (12 + p))) =
        ofLE (((le 4 (len - 4) ++ ((le 4 level ++ le 4 type) ++ (payload ++ more))).drop
          (guest_rules.gap (12 + p))).take 4) := by
      rw [List.append_assoc, List.append_assoc, List.append_assoc, List.drop_left]
      rfl
    have h16 : 16 ≤ host_rules.size g := Nat.le_add_right _ _
    rw [hfield, hshifted, hsum, hread] at hguest
    have hpadlt := Bytes.ofLE_lt pad
    rw [hread] at hfour hfits
    rcases hgap with ⟨hpos, hgap⟩ | hgap
    · rw [hgap] at hguest hfour hpadlt
      exact garbage_near ⟨hpos, hq⟩ ⟨by omega, hsize⟩ hfour hpadlt hguest
    · rw [hgap, show 8 - (guest_rules.gap (12 + p) + 4) = 4 - guest_rules.gap (12 + p) by omega] at hguest
      rw [hgap, show 8 - (guest_rules.gap (12 + p) + 4) = 4 - guest_rules.gap (12 + p) by omega] at hfour hfits
      rw [hgap] at hpadlt
      exact garbage_far hq ⟨by omega, hsize⟩ hfour (Nat.lt_of_le_of_lt hfits hrem) hpadlt hguest

theorem unpadded_short {messages : List Frame} (h : messages.length ≤ 1) : unpadded messages := by
  intro f hf
  have hlength := List.length_pos_of_mem hf
  rw [List.length_dropLast] at hlength
  omega

theorem fitting_length (room : Nat) (messages : List Frame) :
    (fitting room messages).length ≤ messages.length := (fitting_first room messages).length_le

/-- Messages that the guest gets need no padding. -/
theorem unpadded_of_received {messages : List Frame} {ptr : List UInt8}
    (hlaid : host_rules.Laid messages ptr) (hlt : ptr.length < 2 ^ 64) {room rem n : Nat}
    {written r : List UInt8} (hrem : rem < 2 ^ 32) (hroom : written.length + rem = room)
    (hok : recvmsg_copy_msg_control room n written ptr ptr.length rem = .ok r)
    (hframes : guest_rules.frames (r.drop written.length) = some (fitting rem messages)) :
    unpadded (fitting rem messages) := by
  induction hlaid generalizing n rem written with
  | none => exact unpadded_short (Nat.zero_le _)
  | last f pad hf hpad => exact unpadded_short (fitting_length _ _)
  | next f g messages pad buf hf hpad hrest ih =>
    by_cases hfits : guest_rules.size f ≤ rem
    swap
    · rw [fitting_full hfits]
      exact unpadded_short (Nat.zero_le _)
    by_cases hnext : guest_rules.size g ≤
        rem - (guest_rules.size f + guest_rules.gap (guest_rules.size f))
    swap
    · rw [fitting_cons hfits, fitting_full hnext]
      exact unpadded_short (Nat.le_refl _)
    cases n with
    | zero => cases hok
    | succ n =>
      have hguest := fits_guest hf (Nat.lt_of_le_of_lt hfits hrem)
      rw [recv_round hf hlt hrem hroom, if_pos hfits] at hok
      obtain ⟨more, rfl⟩ := recv_extends hok
      rw [fitting_cons hfits] at hframes ⊢
      rw [List.append_assoc, List.drop_left, Format.frames_cons hguest] at hframes
      obtain ⟨others, hothers, hcons⟩ := Option.map_eq_some_iff.mp hframes
      rw [(List.cons.inj hcons).2] at hothers
      have hwritten : (written ++ guest_rules.bytes f).length + (rem - guest_rules.size f) = room := by
        rw [List.length_append, Format.length_bytes hguest]
        omega
      have hmore : (written ++ guest_rules.bytes f ++ more).drop (written ++ guest_rules.bytes f).length =
          more := List.drop_left
      by_cases hf8 : f.payload.length % 8 = 0
      · rw [host_gap hf8] at hpad
        obtain rfl := List.length_eq_zero_iff.mp hpad
        rw [guest_gap hf8, List.drop_zero, ← hmore] at hothers
        rw [List.length_append] at hlt
        have hunpadded := ih (by rw [List.length_append] at hlt; omega) (by omega) hwritten hok hothers
        rw [guest_gap hf8] at hnext ⊢
        have hne : fitting (rem - (guest_rules.size f + 0)) (g :: messages) ≠ [] := by
          rw [fitting_cons hnext]
          exact List.cons_ne_nil _ _
        intro h hh
        rw [List.dropLast_cons_of_ne_nil hne] at hh
        rcases List.mem_cons.mp hh with rfl | hh
        · exact hf8
        · exact hunpadded h hh
      · obtain ⟨hg, rest, hbuf⟩ := Format.laid_cons hrest
        have hsize : host_rules.size g < 2 ^ 32 := by
          have h12 : 12 ≤ guest_rules.size f := Nat.le_add_right _ _
          rw [← guest_size]
          omega
        rw [fitting_cons hnext, ← hmore] at hothers
        exact absurd hothers
          (recv_misread hf8 hpad hg (congrArg (pad ++ ·) hbuf) hsize (by omega) hok)

/-! ## The loop in memory

    `Umeq.Syscall` has the loop of `recvmsg` over the memory of the emulator, for the frame of any
    call. A run that stays in its buffers is the same there. -/

section memory

open Bytes (Mem)

theorem fetch_inv {ptr bytes : List UInt8} {offset n : Nat} (h : fetch ptr offset n = .ok bytes) :
    offset + n ≤ ptr.length ∧ bytes = (ptr.drop offset).take n := by
  unfold fetch at h
  split at h
  · cases h
    exact ⟨‹_›, rfl⟩
  · cases h

theorem read_of_fetch {frame : Mem} {host offset n : Nat} {ptr bytes : List UInt8}
    (hframe : frame.read host ptr.length = ptr) (h : fetch ptr offset n = .ok bytes) :
    frame.read (host + offset) n = bytes := by
  obtain ⟨hlength, rfl⟩ := fetch_inv h
  have hsplit : ptr.take offset ++ ((ptr.drop offset).take n ++ (ptr.drop offset).drop n) = ptr := by
    rw [List.take_append_drop, List.take_append_drop]
  have hpart := Mem.read_part _ _ _ (hframe.trans hsplit.symm)
  rwa [List.length_take, List.length_take, List.length_drop, Nat.min_eq_left (by omega),
    Nat.min_eq_left (by omega)] at hpart

theorem load_of_fetch {frame : Mem} {host offset n v : Nat} {ptr : List UInt8}
    (hframe : frame.read host ptr.length = ptr) (h : fetch_uint ptr offset n = .ok v) :
    frame.load (host + offset) n = v := by
  unfold fetch_uint at h
  cases hbytes : fetch ptr offset n with
  | error fault =>
    rw [hbytes] at h
    cases h
  | ok bytes =>
    rw [hbytes] at h
    cases h
    rw [Mem.load, read_of_fetch hframe hbytes]

/-- A message that is written to memory. -/
theorem write_message (mem : Mem) (g len level type : Nat) (payload : List UInt8) :
    (((mem.store g 4 len).store (g + 4) 4 level).store (g + 8) 4 type).write (g + CMSGHDR_GUEST_SIZE) payload =
      mem.write g (le 4 (len % 2 ^ 32) ++ (le 4 level ++ le 4 type) ++ payload) := by
  have hlen : le 4 (len % 2 ^ 32) = le 4 len := Bytes.le_mod 4 len
  have hlevel := Mem.write_append mem g (le 4 len) (le 4 level)
  have htype := Mem.write_append mem g (le 4 len ++ le 4 level) (le 4 type)
  have hpayload := Mem.write_append mem g (le 4 len ++ (le 4 level ++ le 4 type)) payload
  rw [Bytes.length_le] at hlevel
  rw [List.length_append, Bytes.length_le, Bytes.length_le, List.append_assoc] at htype
  rw [List.length_append, List.length_append, Bytes.length_le, Bytes.length_le, Bytes.length_le] at hpayload
  unfold Mem.store
  rw [hlevel, htype, hlen]
  exact hpayload

theorem load_message (mem : Mem) (g len : Nat) (others : List UInt8) :
    (mem.write g (le 4 (len % 2 ^ 32) ++ others)).load g 4 = len % 2 ^ 32 := by
  have hpart := Mem.read_part [] (le 4 (len % 2 ^ 32)) others (Mem.read_write mem g (le 4 (len % 2 ^ 32) ++ others))
  rw [Bytes.length_le] at hpart
  show ofLE (Mem.read _ (g + ([] : List UInt8).length) 4) = _
  rw [hpart, Bytes.ofLE_le]
  exact Nat.mod_mod _ _

/-- What has been read from `guest` on is there with what is written behind it. -/
theorem read_behind {mem : Mem} {guest : Nat} {written : List UInt8}
    (hmem : mem.read guest written.length = written) (bytes : List UInt8) :
    (mem.write (guest + written.length) bytes).read guest (written ++ bytes).length = written ++ bytes := by
  rw [List.length_append, Mem.read_add, Mem.read_write_apart (.inl (Nat.le_refl _)), hmem, Mem.read_write]

/-- A run over lists, in memory. -/
theorem recv_in_memory {room n rem_host rem : Nat} {written ptr r : List UInt8}
    (h : recvmsg_copy_msg_control room n written ptr rem_host rem = .ok r) {frame mem : Mem}
    {guest host : Nat} (hframe : frame.read host ptr.length = ptr) (hlt : ptr.length < 2 ^ 63)
    (hmem : mem.read guest written.length = written) :
    ∃ mem', Umeq.Syscall.recvmsg_copy_msg_control frame n (guest + written.length) host rem_host rem mem =
        some (mem', guest + r.length) ∧ mem'.read guest r.length = r := by
  induction n generalizing written ptr rem_host rem mem host with
  | zero => cases h
  | succ n ih =>
    rcases recv_ok h with ⟨hshort, rfl⟩ | ⟨hlong, len, hlen, ⟨hfull, rfl⟩ |
      ⟨hfits, level, type, payload, hlevel, htype, hpayload, h⟩⟩
    · refine ⟨mem, ?_, hmem⟩
      rw [Umeq.Syscall.recvmsg_copy_msg_control, if_neg (Nat.not_le.mpr hshort)]
    · refine ⟨mem, ?_, hmem⟩
      have hload := load_of_fetch hframe hlen
      rw [Umeq.Syscall.recvmsg_copy_msg_control, if_pos hlong]
      dsimp only
      rw [← Nat.add_zero host, hload]
      exact if_pos hfull
    · have hload := load_of_fetch hframe hlen
      have hloadlevel := load_of_fetch hframe hlevel
      have hloadtype := load_of_fetch hframe htype
      have hread := read_of_fetch hframe hpayload
      have hend := (fetch_inv hpayload).1
      have hsixteen : CMSGHDR_HOST_SIZE ≤ len := by
        by_contra hsmall
        rw [wrapping_sub_gt (Nat.not_le.mp hsmall) (by decide)] at hend
        omega
      have hlen64 : len < 2 ^ 64 := by
        have h := Mem.load_lt frame (host + 0) 8
        rw [hload] at h
        exact h
      rw [wrapping_sub_le hsixteen hlen64] at hread hend
      have hfour : CMSGHDR_HOST_GUEST_SIZE_DIFF ≤ len := Nat.le_trans (by decide) hsixteen
      rw [wrapping_sub_le hfour hlen64] at h hfits
      have hsum : CMSGHDR_HOST_SIZE + (len - CMSGHDR_HOST_SIZE) = len := Nat.add_sub_cancel' hsixteen
      rw [hsum] at hend
      have hdrop : frame.read (host + len) (ptr.drop len).length = ptr.drop len := by
        refine read_of_fetch hframe ?_
        rw [List.length_drop, fetch_ok (by omega), ← List.length_drop, List.take_length]
      have hbehind := read_behind hmem
        (le 4 ((len - CMSGHDR_HOST_GUEST_SIZE_DIFF) % 2 ^ 32) ++ (le 4 level ++ le 4 type) ++ payload)
      have hpayloadlength : payload.length = len - CMSGHDR_HOST_SIZE := by
        rw [← hread, Mem.length_read]
      have hdroplt : (ptr.drop len).length < 2 ^ 63 := by
        rw [List.length_drop]
        omega
      rw [← List.append_assoc written] at hbehind
      obtain ⟨mem', hrun, hresult⟩ := ih h hdrop hdroplt hbehind
      refine ⟨mem', ?_, hresult⟩
      rw [Umeq.Syscall.recvmsg_copy_msg_control, if_pos hlong]
      dsimp only
      rw [show frame.load host 8 = len from hload, hloadlevel, hloadtype, hread, write_message]
      have hguest : guest + written.length + CMSGHDR_GUEST_SIZE + (len - CMSGHDR_HOST_SIZE) =
          guest + (written ++ (le 4 ((len - CMSGHDR_HOST_GUEST_SIZE_DIFF) % 2 ^ 32) ++
            (le 4 level ++ le 4 type)) ++ payload).length := by
        simp only [List.length_append, Bytes.length_le, hpayloadlength]
        show _ + 12 + _ = _
        omega
      have hnotfull : ¬ rem < (len + 2 ^ 64 - CMSGHDR_HOST_GUEST_SIZE_DIFF) % 2 ^ 64 := by
        rw [show (len + 2 ^ 64 - CMSGHDR_HOST_GUEST_SIZE_DIFF) % 2 ^ 64 = len - CMSGHDR_HOST_GUEST_SIZE_DIFF from
          wrapping_sub_le hfour hlen64]
        exact Nat.not_lt.mpr hfits
      rw [if_neg hnotfull, if_neg (Nat.not_lt.mpr hsixteen), hguest, Nat.add_assoc host, hsum]
      rw [List.append_assoc (le 4 _), load_message, ← List.append_assoc (le 4 _)]
      exact hrun

end memory

/-- What the guest sends reaches the host exactly when no message needs padding in front of another one
    and an `int` can hold the size. What the host answers reaches the guest when no message that fits
    needs padding in front of another one, and no message that reaches the guest does. -/
theorem control_messages_translated {guest : control_buffer} {messages : List Frame}
    (hguest : guest_rules.Laid messages guest.bytes) {host : host_control} {answers : List Frame}
    (hhost : host_rules.Laid answers host.bytes) (room : BitVec 32) :
    (guest.sent messages ↔ unpadded messages ∧ host_total messages < 2 ^ 31) ∧
      ((∀ f ∈ fitting room.toNat answers.dropLast, f.payload.length % 8 = 0) → host.received room answers) ∧
      (host.received room answers → unpadded (fitting room.toNat answers)) := by
  refine ⟨sent_iff hguest, received_of_unpadded hhost, ?_⟩
  rintro ⟨n, guest, hguest, -, hframes⟩
  exact unpadded_of_received hhost host.length_lt room.isLt (Nat.zero_add _) hguest hframes

/-- `SCM_RIGHTS` with one file descriptor. -/
def descriptor : Frame := ⟨[1, 0, 0, 0, 1, 0, 0, 0], [3, 0, 0, 0]⟩

def one_descriptor : control_buffer := ⟨guest_rules.bytes descriptor ++ [], by decide⟩

def one_received : host_control := ⟨host_rules.bytes descriptor ++ [0, 0, 0, 0], by decide⟩

theorem one_descriptor_translated :
    one_descriptor.sent [descriptor] ∧ one_received.received 64 [descriptor] := by
  have h := @control_messages_translated one_descriptor _
    (.last descriptor [] ⟨rfl, by decide⟩ (by decide)) one_received _
    (.last descriptor [0, 0, 0, 0] ⟨rfl, by decide⟩ (by decide)) 64
  exact ⟨h.1.mpr ⟨by decide, by decide⟩, h.2.1 (by decide)⟩

/-- Two messages of one file descriptor each. -/
def two_descriptors : control_buffer :=
  ⟨guest_rules.bytes descriptor ++ ([] ++ (guest_rules.bytes descriptor ++ [])), by decide⟩

theorem two_descriptors_lost :
    guest_rules.Laid [descriptor, descriptor] two_descriptors.bytes ∧
      ¬ two_descriptors.sent [descriptor, descriptor] := by
  have hlaid : guest_rules.Laid [descriptor, descriptor] two_descriptors.bytes :=
    .next _ _ _ [] _ ⟨rfl, by decide⟩ (by decide) (.last _ [] ⟨rfl, by decide⟩ (by decide))
  exact ⟨hlaid, fun h => absurd ((sent_iff hlaid).mp h).1 (by decide)⟩

end Umeq.Messages
