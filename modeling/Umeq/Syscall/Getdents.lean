import Umeq.Lib.Bytes
import Umeq.Lib.Runs

/-! # Directory listings of a 32-bit guest

    `getdents_neutral` of the adapter from 32-bit guests to 64-bit hosts. The host fills a
    buffer of 4096 bytes with records, and these are copied one by one to the buffer of
    the guest, each 8 bytes shorter.

    The host has moved past all the records that it put in the buffer. What the guest has
    no room for is lost, so the listing is right in those runs in which every call has room
    for what the host gives (`getdents_lists`).
-/

namespace Umeq.Syscall

open Bytes

/-! ## Records -/

/-- An entry of a directory. `d_name` is all that follows the header: the name with its
    zero, the padding and the type. A name has at most 255 bytes. -/
structure dirent where
  d_ino : Nat
  d_off : Nat
  d_name : List UInt8
  short : d_name.length ≤ 262
  deriving DecidableEq

/-- The size of a `struct neutral_linux_dirent_64`. -/
def dirent.d_reclen (r : dirent) : Nat := 18 + r.d_name.length

/-- A `struct neutral_linux_dirent_64` in memory. -/
def dirent.bytes (r : dirent) : List UInt8 :=
  le 8 r.d_ino ++ le 8 r.d_off ++ le 2 r.d_reclen ++ r.d_name

/-- What a guest sees of an entry. -/
structure dirent_32 where
  d_ino : Nat
  d_off : Nat
  d_name : List UInt8
  deriving DecidableEq

/-- The fields of a `struct neutral_linux_dirent_32` are shorter. -/
def dirent.guest (r : dirent) : dirent_32 := ⟨r.d_ino % 2 ^ 32, r.d_off % 2 ^ 32, r.d_name⟩

def dirent_32.d_reclen (d : dirent_32) : Nat := 10 + d.d_name.length

/-- A `struct neutral_linux_dirent_32` in memory. -/
def dirent_32.bytes (d : dirent_32) : List UInt8 :=
  le 4 d.d_ino ++ le 4 d.d_off ++ le 2 d.d_reclen ++ d.d_name

/-- The size of records for the host. -/
def host_size (rs : List dirent) : Nat := (rs.map dirent.d_reclen).sum

/-- The size of records for the guest. -/
def guest_size (rs : List dirent) : Nat := (rs.map fun r => r.guest.d_reclen).sum

/-! ## The call -/

def EINVAL : Int := 22

/-- `sizeof(buffer)`. -/
def BUFFER_SIZE : Nat := 4096

/-- As many records as fit. -/
def fit : Nat → List dirent → List dirent
  | _, [] => []
  | n, r :: rs => if r.d_reclen ≤ n then r :: fit (n - r.d_reclen) rs else []

/-- `unsigned int` of an `int`. -/
def to_unsigned (x : Int) : Nat := (x % 2 ^ 32).toNat

/-- The `while` of `getdents_neutral`: the memory of the guest and `res_32` at its end,
    `none` when the bound on the rounds is too small. The records of the host are in
    `buffer`. -/
def getdents_loop (buffer : Mem) : Nat → Int → Nat → Mem → Nat → Nat → Int → Option (Mem × Int)
  | 0, _, _, _, _, _, _ => none
  | fuel + 1, res, dirp_64, mem, dirp, count, res_32 =>
    let d_reclen := buffer.load (dirp_64 + 16) 2
    if res > 0 ∧ count > to_unsigned (d_reclen - 8) then
      let mem := mem.store dirp 4 (buffer.load dirp_64 8)
      let mem := mem.store (dirp + 4) 4 (buffer.load (dirp_64 + 8) 8)
      let mem := mem.store (dirp + 8) 2 (d_reclen - 8)
      let mem := mem.write (dirp + 10) (buffer.read (dirp_64 + 18) (d_reclen - 8 - 8 - 2))
      let guest_reclen := mem.load (dirp + 8) 2
      getdents_loop buffer fuel (res - d_reclen) (dirp_64 + d_reclen) mem (dirp + guest_reclen)
        (count - guest_reclen) (res_32 + guest_reclen)
    else some (mem, res_32)

/-- `getdents_neutral` once the host has answered `res`, with `buffer` as it is then. -/
def getdents_neutral (buffer : Mem) (res : Int) (mem : Mem) (dirp count : Nat) : Option (Mem × Int) :=
  let res_32 := if res < 0 then res else 0
  if res_32 ≥ 0 then
    if to_unsigned (buffer.load 16 2 - 8) ≥ count then some (mem, -EINVAL)
    else getdents_loop buffer (BUFFER_SIZE + 1) res 0 mem dirp count res_32
  else some (mem, res_32)

/-! ## Records in memory -/

section memory

variable {m : Mem} {p : Nat}

theorem dirent.length_bytes (r : dirent) : r.bytes.length = r.d_reclen := by
  simp [dirent.bytes, dirent.d_reclen]
  omega

theorem dirent_32.length_bytes (d : dirent_32) : d.bytes.length = d.d_reclen := by
  simp [dirent_32.bytes, dirent_32.d_reclen]
  omega

theorem guest_reclen (r : dirent) : r.guest.d_reclen + 8 = r.d_reclen := by
  simp only [dirent_32.d_reclen, dirent.guest, dirent.d_reclen]
  omega

/-- The fields of a record of the host. -/
theorem host_fields {r : dirent} {n : Nat} {post : List UInt8} (h : m.read p n = r.bytes ++ post) :
    m.load p 8 = r.d_ino % 2 ^ 64 ∧ m.load (p + 8) 8 = r.d_off % 2 ^ 64 ∧
      m.load (p + 16) 2 = r.d_reclen ∧ m.read (p + 18) r.d_name.length = r.d_name := by
  have hino : m.read p 8 = le 8 r.d_ino := by
    simpa using Mem.read_part [] (le 8 r.d_ino) (le 8 r.d_off ++ le 2 r.d_reclen ++ r.d_name ++ post)
      (by simpa [dirent.bytes] using h)
  have hoff : m.read (p + 8) 8 = le 8 r.d_off := by
    simpa using Mem.read_part (le 8 r.d_ino) (le 8 r.d_off) (le 2 r.d_reclen ++ r.d_name ++ post)
      (by simpa [dirent.bytes] using h)
  have hreclen : m.read (p + 16) 2 = le 2 r.d_reclen := by
    simpa using Mem.read_part (le 8 r.d_ino ++ le 8 r.d_off) (le 2 r.d_reclen) (r.d_name ++ post)
      (by simpa [dirent.bytes] using h)
  have hname : m.read (p + 18) r.d_name.length = r.d_name := by
    simpa using Mem.read_part (le 8 r.d_ino ++ le 8 r.d_off ++ le 2 r.d_reclen) r.d_name post
      (by simpa [dirent.bytes] using h)
  have hshort := r.short
  refine ⟨?_, ?_, ?_, hname⟩
  · rw [Mem.load, hino, ofLE_le]
    rfl
  · rw [Mem.load, hoff, ofLE_le]
    rfl
  · rw [Mem.load, hreclen, ofLE_le, dirent.d_reclen]
    omega

/-- What one round writes is a record of the guest. -/
theorem store_record (m : Mem) (dirp : Nat) (r : dirent) :
    ((((m.store dirp 4 (r.d_ino % 2 ^ 64)).store (dirp + 4) 4 (r.d_off % 2 ^ 64)).store (dirp + 8) 2
      (r.d_reclen - 8)).write (dirp + 10) r.d_name) = m.write dirp r.guest.bytes := by
  have hlow : ∀ v, le 4 (v % 2 ^ 64) = le 4 (v % 2 ^ 32) := by
    intro v
    rw [← le_mod 4 (v % 2 ^ 64), ← le_mod 4 (v % 2 ^ 32)]
    congr 1
    omega
  have hreclen : r.d_reclen - 8 = r.guest.d_reclen := by
    have := guest_reclen r
    omega
  have h4 : dirp + 4 = dirp + (le 4 (r.d_ino % 2 ^ 32)).length := by simp
  have h8 : dirp + 8 = dirp + (le 4 (r.d_ino % 2 ^ 32) ++ le 4 (r.d_off % 2 ^ 32)).length := by simp
  have h10 : dirp + 10 = dirp + (le 4 (r.d_ino % 2 ^ 32) ++ le 4 (r.d_off % 2 ^ 32) ++
      le 2 r.guest.d_reclen).length := by simp
  simp only [Mem.store, hlow, hreclen]
  rw [h10, h8, h4, Mem.write_append, Mem.write_append, Mem.write_append]
  rfl

/-- The length field of a record that was just written. -/
theorem load_reclen (m : Mem) (dirp : Nat) (r : dirent) :
    (m.write dirp r.guest.bytes).load (dirp + 8) 2 = r.guest.d_reclen := by
  have hread := m.read_write dirp r.guest.bytes
  have hreclen : (m.write dirp r.guest.bytes).read (dirp + 8) 2 = le 2 r.guest.d_reclen := by
    simpa using Mem.read_part (le 4 r.guest.d_ino ++ le 4 r.guest.d_off) (le 2 r.guest.d_reclen)
      r.guest.d_name (by simpa [dirent_32.bytes] using hread)
  have hshort := r.short
  rw [Mem.load, hreclen, ofLE_le]
  simp only [dirent_32.d_reclen, dirent.guest]
  omega

end memory

/-! ## What a call delivers -/

/-- The records that the loop copies for a buffer of `count` bytes: as long as one more byte
    is left than the next record takes. -/
def taken : Nat → List dirent → List dirent
  | _, [] => []
  | count, r :: rs =>
    if count > r.guest.d_reclen then r :: taken (count - r.guest.d_reclen) rs else []

section call

variable {buffer mem : Mem} {p dirp count : Nat} {rs : List dirent}

theorem to_unsigned_reclen (r : dirent) : to_unsigned (r.d_reclen - 8) = r.guest.d_reclen := by
  have := guest_reclen r
  have := r.short
  unfold to_unsigned
  unfold dirent.d_reclen at *
  omega

/-- The loop, on a buffer that holds records. -/
theorem getdents_loop_spec {fuel : Nat} (hfuel : rs.length < fuel) {n : Nat} {post : List UInt8}
    (h : buffer.read p n = rs.flatMap dirent.bytes ++ post) (acc : Int) :
    getdents_loop buffer fuel (host_size rs) p mem dirp count acc =
      some (mem.write dirp ((taken count rs).flatMap fun r => r.guest.bytes),
        acc + guest_size (taken count rs)) := by
  induction rs generalizing fuel p n mem dirp count acc with
  | nil =>
    obtain ⟨fuel, rfl⟩ : ∃ k, fuel = k + 1 := ⟨fuel - 1, by simp at hfuel; omega⟩
    rw [getdents_loop, if_neg (by simp [host_size])]
    simp [taken, guest_size, Mem.write_nil]
  | cons r rs ih =>
    obtain ⟨fuel, rfl⟩ : ∃ k, fuel = k + 1 := ⟨fuel - 1, by simp at hfuel; omega⟩
    rw [List.flatMap_cons, List.append_assoc] at h
    obtain ⟨hino, hoff, hreclen, hname⟩ := host_fields h
    have hguest := guest_reclen r
    have hsize : host_size (r :: rs) = r.d_reclen + host_size rs := by simp [host_size]
    have hpos : (host_size (r :: rs) : Int) > 0 := by
      rw [hsize, dirent.d_reclen]
      omega
    have hnext := Mem.read_part r.bytes (rs.flatMap dirent.bytes ++ post) [] (by simpa using h)
    rw [dirent.length_bytes] at hnext
    rw [getdents_loop]
    simp only [hreclen, to_unsigned_reclen, hino, hoff]
    rw [taken]
    by_cases hroom : count > r.guest.d_reclen
    · have hlen : r.d_reclen - 8 - 8 - 2 = r.d_name.length := by
        rw [dirent.d_reclen]
        omega
      rw [if_pos ⟨hpos, hroom⟩, if_pos hroom, hlen, hname, store_record, load_reclen, hsize,
        Nat.cast_add, add_sub_cancel_left,
        ih (by rw [List.length_cons] at hfuel; omega) hnext, List.flatMap_cons,
        ← dirent_32.length_bytes, Mem.write_append]
      simp only [guest_size, List.map_cons, List.sum_cons, dirent_32.length_bytes, Nat.cast_add,
        add_assoc]
    · rw [if_neg (fun h => hroom h.2), if_neg hroom]
      simp [guest_size, Mem.write_nil]

theorem taken_all (h : guest_size rs < count) : taken count rs = rs := by
  induction rs generalizing count with
  | nil => rfl
  | cons r rs ih =>
    simp only [guest_size, List.map_cons, List.sum_cons] at h
    rw [taken, if_pos (by omega), ih (by unfold guest_size; omega)]

theorem getdents_neutral_error {res : Int} (hres : res < 0) :
    getdents_neutral buffer res mem dirp count = some (mem, res) := by
  rw [getdents_neutral]
  simp only [if_pos hres, ge_iff_le, if_neg (Int.not_le.mpr hres)]

/-- The host has answered without an error. -/
theorem getdents_neutral_ok {res : Int} (hres : 0 ≤ res) :
    getdents_neutral buffer res mem dirp count =
      if to_unsigned (buffer.load 16 2 - 8) ≥ count then some (mem, -EINVAL)
      else getdents_loop buffer (BUFFER_SIZE + 1) res 0 mem dirp count 0 := by
  rw [getdents_neutral]
  simp only [if_neg (Int.not_lt.mpr hres)]
  rfl

/-- At the end of the directory nothing is written. The answer depends on what the buffer
    held before. -/
theorem getdents_neutral_end (buffer mem : Mem) (dirp count : Nat) :
    ∃ res, (res = 0 ∨ res = -EINVAL) ∧ getdents_neutral buffer 0 mem dirp count = some (mem, res) := by
  rw [getdents_neutral_ok (Int.le_refl 0)]
  split_ifs
  · exact ⟨_, .inr rfl, rfl⟩
  · refine ⟨0, .inl rfl, ?_⟩
    rw [getdents_loop, if_neg (by simp)]

/-- A call that has room for all the records that the host gives. -/
theorem getdents_neutral_records (hlen : rs.length ≤ BUFFER_SIZE)
    (h : buffer.read 0 (host_size rs) = rs.flatMap dirent.bytes) (hne : rs ≠ [])
    (hroom : guest_size rs < count) :
    getdents_neutral buffer (host_size rs) mem dirp count =
      some (mem.write dirp (rs.flatMap fun r => r.guest.bytes), (guest_size rs : Int)) := by
  obtain ⟨r, rs', rfl⟩ := List.exists_cons_of_ne_nil hne
  obtain ⟨-, -, hreclen, -⟩ := host_fields (r := r) h
  rw [Nat.zero_add] at hreclen
  have hfirst : ¬ r.guest.d_reclen ≥ count := by
    simp only [guest_size, List.map_cons, List.sum_cons] at hroom
    omega
  rw [getdents_neutral_ok (Int.natCast_nonneg _), hreclen, to_unsigned_reclen, if_neg hfirst,
    getdents_loop_spec (Nat.lt_succ_of_le hlen) (h.trans (List.append_nil _).symm), taken_all hroom,
    zero_add]

end call

/-! ## What the guest reads -/

/-- The records in a buffer of `n` bytes, as a guest walks through them. -/
def entries (m : Mem) : Nat → Nat → Nat → List dirent_32
  | 0, _, _ => []
  | fuel + 1, p, n =>
    let d_reclen := m.load (p + 8) 2
    if d_reclen = 0 ∨ n < d_reclen then []
    else ⟨m.load p 4, m.load (p + 4) 4, m.read (p + 10) (d_reclen - 10)⟩ ::
      entries m fuel (p + d_reclen) (n - d_reclen)

/-- The fields of a record of the guest. -/
theorem guest_fields {m : Mem} {p n : Nat} {r : dirent} {post : List UInt8}
    (h : m.read p n = r.guest.bytes ++ post) :
    m.load (p + 8) 2 = r.guest.d_reclen ∧
      (⟨m.load p 4, m.load (p + 4) 4, m.read (p + 10) (r.guest.d_reclen - 10)⟩ : dirent_32) = r.guest := by
  have hino : m.read p 4 = le 4 r.guest.d_ino := by
    simpa using Mem.read_part [] (le 4 r.guest.d_ino)
      (le 4 r.guest.d_off ++ le 2 r.guest.d_reclen ++ r.guest.d_name ++ post)
      (by simpa [dirent_32.bytes] using h)
  have hoff : m.read (p + 4) 4 = le 4 r.guest.d_off := by
    simpa using Mem.read_part (le 4 r.guest.d_ino) (le 4 r.guest.d_off)
      (le 2 r.guest.d_reclen ++ r.guest.d_name ++ post) (by simpa [dirent_32.bytes] using h)
  have hreclen : m.read (p + 8) 2 = le 2 r.guest.d_reclen := by
    simpa using Mem.read_part (le 4 r.guest.d_ino ++ le 4 r.guest.d_off) (le 2 r.guest.d_reclen)
      (r.guest.d_name ++ post) (by simpa [dirent_32.bytes] using h)
  have hname : m.read (p + 10) r.guest.d_name.length = r.guest.d_name := by
    simpa using Mem.read_part (le 4 r.guest.d_ino ++ le 4 r.guest.d_off ++ le 2 r.guest.d_reclen)
      r.guest.d_name post (by simpa [dirent_32.bytes] using h)
  have hshort := r.short
  refine ⟨?_, ?_⟩
  · rw [Mem.load, hreclen, ofLE_le]
    simp only [dirent_32.d_reclen, dirent.guest]
    omega
  · rw [Mem.load, hino, ofLE_le, Mem.load, hoff, ofLE_le, dirent_32.d_reclen, Nat.add_sub_cancel_left,
      hname]
    simp only [dirent.guest, dirent_32.mk.injEq, and_true]
    omega

/-- The guest reads the records that were written. -/
theorem entries_of_read {m : Mem} {p : Nat} {rs : List dirent} {fuel : Nat} (hfuel : rs.length ≤ fuel)
    (h : m.read p (guest_size rs) = rs.flatMap fun r => r.guest.bytes) :
    entries m fuel p (guest_size rs) = rs.map dirent.guest := by
  induction rs generalizing p fuel with
  | nil =>
    cases fuel with
    | zero => rfl
    | succ fuel =>
      rw [entries, if_pos (by simp only [guest_size, List.map_nil, List.sum_nil]; omega)]
      rfl
  | cons r rs ih =>
    obtain ⟨fuel, rfl⟩ : ∃ k, fuel = k + 1 := ⟨fuel - 1, by simp at hfuel; omega⟩
    have hsize : guest_size (r :: rs) = r.guest.d_reclen + guest_size rs := by simp [guest_size]
    rw [List.flatMap_cons] at h
    obtain ⟨hreclen, hfields⟩ := guest_fields h
    have hpos : 0 < r.guest.d_reclen := by
      rw [dirent_32.d_reclen]
      omega
    rw [hsize, Mem.read_add] at h
    have hrest := List.append_inj_right h (by simp [dirent_32.length_bytes])
    rw [entries]
    simp only [hreclen]
    rw [if_neg (by omega), hfields, hsize, Nat.add_sub_cancel_left,
      ih (by simpa using hfuel) hrest, List.map_cons]

/-! ## Listings -/

/-- A call of the guest. The host can refuse it with an error number; `stack` is what the
    buffer held before. -/
structure getdents_call where
  dirp : Nat
  count : BitVec 32
  stack : Mem
  error : Option Nat

/-- The memory of the guest, the entries of the directory that the host has not passed yet
    and the entries that the guest has read after its calls. -/
structure listing where
  mem : Mem
  rest : List dirent
  seen : List dirent_32

/-- What the host puts in the buffer. -/
def getdents_call.records (c : getdents_call) (s : listing) : List dirent :=
  match c.error with
  | some _ => []
  | none => fit BUFFER_SIZE s.rest

/-- What the host answers. -/
def getdents_call.answer (c : getdents_call) (s : listing) : Int :=
  match c.error with
  | some e => -(e + 1)
  | none => host_size (c.records s)

/-- The call: the memory and the answer that the guest gets. -/
def getdents_call.exec (c : getdents_call) (s : listing) : Option (Mem × Int) :=
  getdents_neutral (c.stack.write 0 ((c.records s).flatMap dirent.bytes)) (c.answer s) s.mem c.dirp
    c.count.toNat

/-- The calls of a guest that lists a directory. -/
def getdents_runs (dir : List dirent) (mem : Mem) : Runs.System listing getdents_call where
  init := ⟨mem, dir, []⟩
  exec := fun s c => do
    let (mem, res) ← c.exec s
    some ⟨mem, s.rest.drop (c.records s).length,
      s.seen ++ if res > 0 then entries mem res.toNat c.dirp res.toNat else []⟩

/-- The guest has room for all that the host gives. -/
def has_room (s : listing) (c : getdents_call) : Prop :=
  c.records s = [] ∨ guest_size (c.records s) < c.count.toNat

/-- What the guest has read and what is still to come is the directory. -/
def Lists (dir : List dirent) (s : listing) : Prop :=
  s.seen ++ s.rest.map dirent.guest = dir.map dirent.guest

section listings

variable {dir rs : List dirent} {mem : Mem} {s s' : listing} {c : getdents_call}

theorem fit_prefix (n : Nat) (rs : List dirent) : fit n rs <+: rs := by
  induction rs generalizing n with
  | nil => exact List.prefix_refl _
  | cons r rs ih =>
    rw [fit]
    split_ifs
    · exact (List.prefix_cons_inj r).mpr (ih _)
    · exact List.nil_prefix

theorem host_size_cons (r : dirent) (rs : List dirent) :
    host_size (r :: rs) = r.d_reclen + host_size rs := by
  simp [host_size]

theorem host_size_fit (n : Nat) (rs : List dirent) : host_size (fit n rs) ≤ n := by
  induction rs generalizing n with
  | nil => simp [fit, host_size]
  | cons r rs ih =>
    rw [fit]
    split_ifs with hfit
    · have := ih (n - r.d_reclen)
      rw [host_size_cons]
      omega
    · simp [host_size]

theorem length_le_host_size (rs : List dirent) : rs.length ≤ host_size rs := by
  induction rs with
  | nil => simp
  | cons r rs ih =>
    rw [host_size_cons, List.length_cons, dirent.d_reclen]
    omega

theorem length_le_guest_size (rs : List dirent) : rs.length ≤ guest_size rs := by
  induction rs with
  | nil => simp
  | cons r rs ih =>
    simp only [guest_size, List.map_cons, List.sum_cons, dirent_32.d_reclen, List.length_cons] at ih ⊢
    omega

theorem length_guest_bytes (rs : List dirent) :
    (rs.flatMap fun r => r.guest.bytes).length = guest_size rs := by
  simp [List.length_flatMap, guest_size, dirent_32.length_bytes]

theorem length_host_bytes (rs : List dirent) : (rs.flatMap dirent.bytes).length = host_size rs := by
  simp only [List.length_flatMap, host_size, dirent.length_bytes]

/-- A record always fits in the buffer, so that no records means the end. -/
theorem fit_eq_nil (h : fit BUFFER_SIZE rs = []) : rs = [] := by
  cases rs with
  | nil => rfl
  | cons r rs =>
    have hshort := r.short
    rw [fit, if_pos (by unfold dirent.d_reclen BUFFER_SIZE; omega)] at h
    cases h

theorem records_prefix (c : getdents_call) (s : listing) : c.records s <+: s.rest := by
  unfold getdents_call.records
  split
  · exact List.nil_prefix
  · exact fit_prefix _ _

/-- A call that the host gives no records for: an error or the end of the directory. -/
theorem exec_no_records (h : c.records s = []) :
    ∃ res, c.exec s = some (s.mem, res) ∧ res ≤ 0 ∧ (res = 0 → s.rest = []) := by
  unfold getdents_call.exec getdents_call.answer
  cases herror : c.error with
  | some e =>
    have hneg : (-(e + 1) : Int) < 0 := by omega
    exact ⟨-(e + 1), getdents_neutral_error hneg, by omega, by omega⟩
  | none =>
    have hend : s.rest = [] := by
      simp only [getdents_call.records, herror] at h
      exact fit_eq_nil h
    rw [h]
    obtain ⟨res, hres, hexec⟩ := getdents_neutral_end (c.stack.write 0 ([].flatMap dirent.bytes)) s.mem
      c.dirp c.count.toNat
    refine ⟨res, hexec, ?_, fun _ => hend⟩
    unfold EINVAL at hres
    omega

/-- A call with records, for all of which there is room. -/
theorem exec_records (hne : c.records s ≠ []) (hroom : guest_size (c.records s) < c.count.toNat) :
    ∃ mem, c.exec s = some (mem, (guest_size (c.records s) : Int)) ∧
      entries mem (guest_size (c.records s)) c.dirp (guest_size (c.records s)) =
        (c.records s).map dirent.guest ∧
      ∀ a, a < c.dirp ∨ c.dirp + c.count.toNat ≤ a → mem a = s.mem a := by
  have herror : c.error = none := by
    cases herror : c.error with
    | none => rfl
    | some e => simp [getdents_call.records, herror] at hne
  have hsize : host_size (c.records s) ≤ BUFFER_SIZE := by
    simp only [getdents_call.records, herror]
    exact host_size_fit _ _
  have hlen : (c.records s).length ≤ BUFFER_SIZE :=
    Nat.le_trans (length_le_host_size _) hsize
  have hbuffer := c.stack.read_write 0 ((c.records s).flatMap dirent.bytes)
  rw [length_host_bytes] at hbuffer
  refine ⟨s.mem.write c.dirp ((c.records s).flatMap fun r => r.guest.bytes), ?_,
    entries_of_read (length_le_guest_size _) ?_, ?_⟩
  · simp only [getdents_call.exec, getdents_call.answer, herror]
    exact getdents_neutral_records hlen hbuffer hne hroom
  · have hread := s.mem.read_write c.dirp ((c.records s).flatMap fun r => r.guest.bytes)
    rwa [length_guest_bytes] at hread
  · intro a ha
    refine Mem.write_apart ?_
    rw [length_guest_bytes]
    omega

/-- The step lemma. -/
theorem Lists.step (h : Lists dir s) (hroom : has_room s c)
    (hexec : (getdents_runs dir mem).exec s c = some s') : Lists dir s' := by
  obtain ⟨⟨mem', res⟩, hcall, hs'⟩ := Option.bind_eq_some_iff.mp hexec
  obtain rfl := Option.some.inj hs'
  obtain ⟨after, hrest⟩ := records_prefix c s
  have hdrop : s.rest.drop (c.records s).length = after := by
    rw [← hrest, List.drop_left]
  unfold Lists at h ⊢
  rw [← hrest, List.map_append] at h
  by_cases hnone : c.records s = []
  · obtain ⟨res', hcall', hle, -⟩ := exec_no_records hnone
    obtain ⟨rfl, rfl⟩ := Prod.mk.inj (Option.some.inj (hcall.symm.trans hcall'))
    simp only [hdrop]
    rw [if_neg (by omega), List.append_nil]
    simpa [hnone] using h
  · obtain ⟨mem'', hcall', hentries, -⟩ := exec_records hnone (hroom.resolve_left hnone)
    obtain ⟨rfl, rfl⟩ := Prod.mk.inj (Option.some.inj (hcall.symm.trans hcall'))
    have hpos : 0 < guest_size (c.records s) :=
      Nat.lt_of_lt_of_le (List.length_pos_of_ne_nil hnone) (length_le_guest_size _)
    simp only [hdrop]
    rw [if_pos (by omega), Int.toNat_natCast, hentries, List.append_assoc]
    exact h

/-- In every run of calls that have room for what the host gives, the guest has read the
    first entries of the directory, each once and in order. The next such call answers 0
    only when these are all, and what it answers else is within the buffer, as is all that
    it writes. -/
theorem getdents_lists (h : (getdents_runs dir mem).Reach has_room s) :
    s.seen <+: dir.map dirent.guest ∧
    ∀ c, has_room s c → ∃ mem' res, c.exec s = some (mem', res) ∧
      (res = 0 → s.seen = dir.map dirent.guest) ∧ res ≤ c.count.toNat ∧
      ∀ a, a < c.dirp ∨ c.dirp + c.count.toNat ≤ a → mem' a = s.mem a := by
  have hlists : Lists dir s := h.invariant rfl fun s c s' hs hok hexec => hs.step hok hexec
  refine ⟨⟨_, hlists⟩, ?_⟩
  intro c hroom
  by_cases hnone : c.records s = []
  · obtain ⟨res, hcall, hle, hend⟩ := exec_no_records hnone
    refine ⟨s.mem, res, hcall, ?_, by omega, fun _ _ => rfl⟩
    intro hzero
    simpa [Lists, hend hzero] using hlists
  · have hfits := hroom.resolve_left hnone
    obtain ⟨mem', hcall, -, hframe⟩ := exec_records hnone hfits
    have hpos : 0 < guest_size (c.records s) :=
      Nat.lt_of_lt_of_le (List.length_pos_of_ne_nil hnone) (length_le_guest_size _)
    exact ⟨mem', _, hcall, by omega, by omega, hframe⟩

end listings

/-! ### Two entries -/

/-- The entry of a file with a name of one letter. -/
def one_letter (ino : Nat) (letter : UInt8) : dirent := ⟨ino, 0, [letter, 0, 0, 0, 0, 8], by simp⟩

def two_entries : List dirent := [one_letter 1 0x61, one_letter 2 0x62]

/-- A call with a buffer of `count` bytes, on a stack that held a record. -/
def list_call (count : BitVec 32) : getdents_call :=
  ⟨0x1000, count, fun a => if a = 16 then 24 else 0, none⟩

/-- A buffer of 33 bytes has room for both. -/
theorem two_entries_listed : ∃ s, (getdents_runs two_entries fun _ => 0).Reach has_room s ∧
    s.seen = two_entries.map dirent.guest ∧ s.seen <+: two_entries.map dirent.guest := by
  have hroom : has_room ⟨fun _ => 0, two_entries, []⟩ (list_call 33) := .inr (by decide)
  obtain ⟨s, hs, hseen⟩ : ∃ s, (getdents_runs two_entries fun _ => 0).Reach has_room s ∧
      s.seen = two_entries.map dirent.guest :=
    ⟨_, .step .init (l := list_call 33) hroom rfl, by decide⟩
  exact ⟨s, hs, hseen, (getdents_lists hs).1⟩

/-- A buffer of 20 bytes has room for the first one only. The next call answers 0, and the
    second entry is never seen. -/
theorem second_entry_lost : ∃ s mem, (getdents_runs two_entries fun _ => 0).Reach (fun _ _ => True) s ∧
    s.seen = [(one_letter 1 0x61).guest] ∧ (list_call 20).exec s = some (mem, 0) :=
  ⟨_, _, .step .init (l := list_call 20) trivial rfl, by decide, rfl⟩

end Umeq.Syscall
