import Umeq.Lib.Bytes

/-! # Frames in a buffer

    A frame starts with its own length, then a tag, then a payload. The next frame of a buffer starts
    at a multiple of the alignment. Less than a header at the end of a buffer is no frame.

    * `Format`: the widths of the length and the tag, and the alignment.
    * `Format.frames`: the frames of a buffer, `none` if a length is out of range.
    * `Format.Laid`: a buffer into which frames were laid out, with any padding.

    `frames_laid` reads back what was laid out.
-/

namespace Frames

open Bytes (le ofLE)

structure Frame where
  tag : List UInt8
  payload : List UInt8
  deriving DecidableEq, Repr

structure Format where
  len_size : Nat
  tag_size : Nat
  align : Nat
  len_pos : 0 < len_size
  align_pos : 0 < align

namespace Format

variable (F : Format)

def header : Nat := F.len_size + F.tag_size

/-- The padding after `n` bytes. -/
def gap (n : Nat) : Nat := (F.align - n % F.align) % F.align

def size (f : Frame) : Nat := F.header + f.payload.length

/-- The length of a frame fits into its field. -/
structure Fits (f : Frame) : Prop where
  tag : f.tag.length = F.tag_size
  size : F.size f < 256 ^ F.len_size

def bytes (f : Frame) : List UInt8 := le F.len_size (F.size f) ++ (f.tag ++ f.payload)

/-- The length field at the start of a buffer. -/
def len (buf : List UInt8) : Nat := ofLE (buf.take F.len_size)

/-- The first frame of a buffer. -/
def first (buf : List UInt8) : Frame :=
  ⟨(buf.take F.header).drop F.len_size, (buf.take (F.len buf)).drop F.header⟩

/-- At most so many frames. -/
def parse : Nat → List UInt8 → Option (List Frame)
  | 0, _ => some []
  | n + 1, buf =>
    if buf.length < F.header then some []
    else if F.header ≤ F.len buf ∧ F.len buf ≤ buf.length then
      (parse n (buf.drop (F.len buf + F.gap (F.len buf)))).map (F.first buf :: ·)
    else none

/-- Every frame takes a byte at least. -/
def frames (buf : List UInt8) : Option (List Frame) := F.parse buf.length buf

/-- A buffer with these frames in it. The padding after the last one may be cut. -/
inductive Laid : List Frame → List UInt8 → Prop where
  | none : Laid [] []
  | last (f : Frame) (pad : List UInt8) (hf : F.Fits f) (hpad : pad.length ≤ F.gap (F.size f)) :
      Laid [f] (F.bytes f ++ pad)
  | next (f g : Frame) (fs : List Frame) (pad buf : List UInt8) (hf : F.Fits f)
      (hpad : pad.length = F.gap (F.size f)) (hrest : Laid (g :: fs) buf) :
      Laid (f :: g :: fs) (F.bytes f ++ (pad ++ buf))

variable {F}

theorem header_pos : 0 < F.header := Nat.lt_of_lt_of_le F.len_pos (Nat.le_add_right _ _)

theorem gap_lt (n : Nat) : F.gap n < F.align := Nat.mod_lt _ F.align_pos

/-! ## Reading a buffer -/

theorem parse_fuel {n : Nat} {buf : List UInt8} (hn : buf.length ≤ n) : F.parse n buf = F.frames buf := by
  have hpos := F.header_pos
  unfold frames
  induction n using Nat.strong_induction_on generalizing buf with
  | h n ih =>
    cases n with
    | zero => rw [Nat.le_zero.mp hn]
    | succ n =>
      cases hlength : buf.length with
      | zero =>
        have hempty : buf.length < F.header := by omega
        rw [parse, parse, if_pos hempty]
      | succ k =>
        rw [parse, parse]
        by_cases hshort : buf.length < F.header
        · rw [if_pos hshort, if_pos hshort]
        rw [if_neg hshort, if_neg hshort]
        by_cases hlen : F.header ≤ F.len buf ∧ F.len buf ≤ buf.length
        · have hdrop : (buf.drop (F.len buf + F.gap (F.len buf))).length ≤ k := by
            rw [List.length_drop]
            omega
          rw [if_pos hlen, if_pos hlen, ih n (Nat.lt_succ_self n) (by omega),
            ih k (by omega) hdrop]
        · rw [if_neg hlen, if_neg hlen]

theorem frames_short {buf : List UInt8} (h : buf.length < F.header) : F.frames buf = some [] := by
  unfold frames
  cases hlength : buf.length with
  | zero => rfl
  | succ n => rw [parse, if_pos h]

theorem frames_step {buf : List UInt8} (h : F.header ≤ F.len buf) (hlen : F.len buf ≤ buf.length) :
    F.frames buf =
      (F.frames (buf.drop (F.len buf + F.gap (F.len buf)))).map (F.first buf :: ·) := by
  have hpos := F.header_pos
  obtain ⟨n, hn⟩ : ∃ n, buf.length = n + 1 := Nat.exists_eq_add_one.mpr (by omega)
  have hdrop : (buf.drop (F.len buf + F.gap (F.len buf))).length ≤ n := by
    rw [List.length_drop]
    omega
  rw [← @parse_fuel F (n + 1) buf (Nat.le_of_eq hn), parse, if_neg (by omega), if_pos ⟨h, hlen⟩,
    parse_fuel hdrop]

theorem frames_bad {buf : List UInt8} (hlong : F.header ≤ buf.length)
    (h : ¬ (F.header ≤ F.len buf ∧ F.len buf ≤ buf.length)) : F.frames buf = none := by
  have hpos := F.header_pos
  obtain ⟨n, hn⟩ : ∃ n, buf.length = n + 1 := Nat.exists_eq_add_one.mpr (by omega)
  unfold frames
  rw [hn, parse, if_neg (by omega), if_neg h]

/-! ## One frame -/

section frame

variable {f : Frame} (hf : F.Fits f) (rest : List UInt8)

include hf

theorem length_bytes : (F.bytes f).length = F.size f := by
  have htag := hf.tag
  simp only [bytes, List.length_append, Bytes.length_le, size, header]
  omega

theorem len_bytes : F.len (F.bytes f ++ rest) = F.size f := by
  have htake : (F.bytes f ++ rest).take F.len_size = le F.len_size (F.size f) := by
    rw [bytes, List.append_assoc]
    exact List.take_left' (Bytes.length_le _ _)
  rw [len, htake, Bytes.ofLE_le, Nat.mod_eq_of_lt hf.size]

theorem first_bytes : F.first (F.bytes f ++ rest) = f := by
  have hbytes : F.bytes f ++ rest = (le F.len_size (F.size f) ++ f.tag) ++ (f.payload ++ rest) := by
    simp [bytes]
  have hheader : (le F.len_size (F.size f) ++ f.tag).length = F.header := by
    rw [List.length_append, Bytes.length_le, hf.tag]
    rfl
  have htag : ((F.bytes f ++ rest).take F.header).drop F.len_size = f.tag := by
    rw [hbytes, List.take_left' hheader]
    exact List.drop_left' (Bytes.length_le _ _)
  have hpayload : ((F.bytes f ++ rest).take (F.size f)).drop F.header = f.payload := by
    rw [List.take_left' (length_bytes hf), bytes, ← List.append_assoc]
    exact List.drop_left' hheader
  rw [first, len_bytes hf, htag, hpayload]

/-- The first frame of a buffer is read. -/
theorem frames_cons : F.frames (F.bytes f ++ rest) =
    (F.frames (rest.drop (F.gap (F.size f)))).map (f :: ·) := by
  have hlen := len_bytes hf rest
  have hbytes := length_bytes hf
  have hdrop : (F.bytes f ++ rest).drop (F.size f + F.gap (F.size f)) = rest.drop (F.gap (F.size f)) := by
    rw [← hbytes, ← List.drop_drop, List.drop_left]
  rw [frames_step (by rw [hlen]; exact Nat.le_add_right _ _)
    (by rw [hlen, List.length_append, hbytes]; exact Nat.le_add_right _ _), hlen, hdrop, first_bytes hf]

end frame

/-! ## Buffers with a frame at their start -/

/-- A buffer with a length in range starts with a frame. -/
theorem bytes_first {buf : List UInt8} (h : F.header ≤ F.len buf) (hlen : F.len buf ≤ buf.length) :
    F.Fits (F.first buf) ∧ F.bytes (F.first buf) = buf.take (F.len buf) ∧
      F.size (F.first buf) = F.len buf := by
  have hsplit : F.len_size + F.tag_size = F.header := rfl
  have htag : (F.first buf).tag.length = F.tag_size := by
    rw [first, List.length_drop, List.length_take]
    omega
  have hsize : F.size (F.first buf) = F.len buf := by
    rw [size, first, List.length_drop, List.length_take]
    omega
  have hfield : (buf.take F.len_size).length = F.len_size := by
    rw [List.length_take]
    omega
  have hlt : F.len buf < 256 ^ F.len_size := by
    have h := Bytes.ofLE_lt (buf.take F.len_size)
    rwa [hfield] at h
  refine ⟨⟨htag, hsize ▸ hlt⟩, ?_, hsize⟩
  have hle : le F.len_size (F.len buf) = buf.take F.len_size := by
    have h := Bytes.le_ofLE (buf.take F.len_size)
    rwa [hfield] at h
  have hheader : buf.take F.len_size ++ (buf.take F.header).drop F.len_size = buf.take F.header := by
    have h := List.take_append_drop F.len_size (buf.take F.header)
    rwa [List.take_take, Nat.min_eq_left (hsplit ▸ Nat.le_add_right _ _)] at h
  have hall : buf.take F.header ++ (buf.take (F.len buf)).drop F.header = buf.take (F.len buf) := by
    have h' := List.take_append_drop F.header (buf.take (F.len buf))
    rwa [List.take_take, Nat.min_eq_left h] at h'
  rw [bytes, hsize, hle, ← List.append_assoc]
  show buf.take F.len_size ++ (buf.take F.header).drop F.len_size ++ (buf.take (F.len buf)).drop F.header = _
  rw [hheader, hall]

/-- The length of the first frame that is read. -/
theorem len_of_frames {buf : List UInt8} {f : Frame} {fs : List Frame}
    (h : F.frames buf = some (f :: fs)) : F.len buf = F.size f := by
  by_cases hshort : buf.length < F.header
  · rw [frames_short hshort] at h
    cases h
  by_cases hlen : F.header ≤ F.len buf ∧ F.len buf ≤ buf.length
  · rw [frames_step hlen.1 hlen.2] at h
    obtain ⟨others, -, hcons⟩ := Option.map_eq_some_iff.mp h
    rw [← (List.cons.inj hcons).1]
    exact (bytes_first hlen.1 hlen.2).2.2.symm
  · rw [frames_bad (Nat.not_lt.mp hshort) hlen] at h
    cases h

/-! ## Layouts -/

/-- What is laid out is read back, if no padding is as long as a header. -/
theorem frames_laid (halign : F.align ≤ F.header) {fs : List Frame} {buf : List UInt8}
    (h : F.Laid fs buf) : F.frames buf = some fs := by
  induction h with
  | none => exact frames_short F.header_pos
  | last f pad hf hpad =>
    have hgap := F.gap_lt (F.size f)
    have hshort : (pad.drop (F.gap (F.size f))).length < F.header := by
      rw [List.length_drop]
      omega
    rw [frames_cons hf, frames_short hshort]
    rfl
  | next f g fs pad buf hf hpad hrest ih =>
    rw [frames_cons hf, List.drop_left' hpad, ih]
    rfl

theorem laid_fits {fs : List Frame} {buf : List UInt8} (h : F.Laid fs buf) : ∀ f ∈ fs, F.Fits f := by
  induction h with
  | none => exact fun f hf => nomatch hf
  | last f pad hf hpad =>
    intro g hg
    rw [List.mem_singleton.mp hg]
    exact hf
  | next f g fs pad buf hf hpad hrest ih =>
    intro h hh
    rcases List.mem_cons.mp hh with rfl | hh
    · exact hf
    · exact ih h hh

theorem laid_cons {f : Frame} {fs : List Frame} {buf : List UInt8} (h : F.Laid (f :: fs) buf) :
    F.Fits f ∧ ∃ rest, buf = F.bytes f ++ rest := by
  cases h with
  | last f pad hf hpad => exact ⟨hf, pad, rfl⟩
  | next f g fs pad buf hf hpad hrest => exact ⟨hf, pad ++ buf, rfl⟩

/-- Frames that need no padding are laid out one after another. -/
theorem laid_flatMap {fs : List Frame} (hfits : ∀ f ∈ fs, F.Fits f)
    (hgap : ∀ f ∈ fs.dropLast, F.gap (F.size f) = 0) : F.Laid fs (fs.flatMap F.bytes) := by
  induction fs with
  | nil => exact .none
  | cons f fs ih =>
    have hf := hfits f List.mem_cons_self
    cases fs with
    | nil => exact .last f [] hf (Nat.zero_le _)
    | cons g fs =>
      have hrest := ih (fun h hh => hfits h (List.mem_cons_of_mem f hh))
        fun h hh => hgap h (List.mem_cons_of_mem f hh)
      exact .next f g fs [] _ hf (hgap f List.mem_cons_self).symm hrest

end Format

end Frames
