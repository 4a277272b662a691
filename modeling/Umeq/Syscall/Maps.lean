import Mathlib.Data.List.TakeWhile
import Umeq.Runtime.Stdio

/-! # The maps of a process, as an arm64 guest reads them

    When the guest opens its `maps`, `arm64_open.c` copies the lines of the host to a temporary file,
    but for those that are outside of the space of the guest. A line is read into a buffer of 512
    bytes and printed into another one.

    A line that does not fit into the buffer comes in pieces, and each piece is taken for a line.

    * `guest_maps`: what is to be written.
    * `maps_line.fits`: the lines that are read and printed whole.
-/

namespace Umeq.Syscall

open Umeq.Runtime (char string print arg numeral)

/-! ## `arm64_open.c` -/

/-- `none` is `fatal`. -/
def conv_hex_to_int (c : UInt8) : Option Nat :=
  if 48 ≤ c ∧ c ≤ 57 then some (c - 48).toNat
  else if 97 ≤ c ∧ c ≤ 102 then some ((c - 97).toNat + 10)
  else if 65 ≤ c ∧ c ≤ 70 then some ((c - 65).toNat + 10)
  else none

/-- The loop of `split_line`: the two addresses, and what follows the space. -/
def split_loop : List UInt8 → Bool → Nat → Nat → Option (Nat × Nat × Option (List UInt8))
  | [], _, start_addr, end_addr => some (start_addr, end_addr, none)
  | c :: line, true, start_addr, end_addr =>
    if c = char '-' then split_loop line false start_addr end_addr
    else do
      let digit ← conv_hex_to_int c
      split_loop line true ((start_addr * 16 + digit) % 2 ^ 64) end_addr
  | c :: line, false, start_addr, end_addr =>
    if c = char ' ' then some (start_addr, end_addr, some line)
    else do
      let digit ← conv_hex_to_int c
      split_loop line false start_addr ((end_addr * 16 + digit) % 2 ^ 64)

/-- `split_line`, for what is in the buffer. -/
def split_line (line : List UInt8) : Option (Nat × Nat × Option (List UInt8)) :=
  split_loop (line.takeWhile (· ≠ 0)) true 0 0

/-- `getline_internal`, for a buffer with so many places in front of the last one: the line and
    what is left to read. -/
def getline_internal : Nat → List UInt8 → List UInt8 × List UInt8
  | 0, input => ([], input)
  | _, [] => ([], [])
  | places + 1, c :: input =>
    if c = char '\n' then ([c], input)
    else (c :: (getline_internal places input).1, (getline_internal places input).2)

def h_2_g (ptr : Nat) : Nat := ptr

/-- How the emulator may stop. -/
inductive failure where
  /-- `fatal` of `conv_hex_to_int`. -/
  | fatal
  /-- A write past the end of `new_line`. -/
  | overflow
  deriving DecidableEq, Repr

/-- What is written for a line that was read. -/
def rewrite_line (line : List UInt8) : Except failure (List UInt8) :=
  match split_line line with
  | none => .error .fatal
  | some (start_addr, end_addr, line_with_remove_addresses) =>
    if 0x400000 ≤ start_addr ∧ end_addr < 512 * 1024 * 1024 * 1024 then
      match print (string "%08lx-%08lx %s")
          [.int (BitVec.ofNat 64 (h_2_g start_addr)), .int (BitVec.ofNat 64 (h_2_g end_addr)),
            .str line_with_remove_addresses] with
      | none => .error .overflow
      | some (new_line, _) => if new_line.length < 512 then .ok new_line else .error .overflow
    else .ok []

/-- `write_offset_proc_self_maps`, for at most as many lines as given: all that is written. -/
def write_lines : Nat → List UInt8 → Except failure (List UInt8)
  | 0, _ => .ok []
  | n + 1, input =>
    match getline_internal 511 input with
    | ([], _) => .ok []
    | (c :: line, input) => do
      let new_line ← rewrite_line (c :: line)
      let others ← write_lines n input
      return new_line ++ others

/-- Every line has a byte at least. -/
def write_offset_proc_self_maps (input : List UInt8) : Except failure (List UInt8) :=
  write_lines input.length input

/-! ## What is to be written -/

/-- The number that hexadecimal digits stand for. -/
def hex_value (digits : List UInt8) : Nat :=
  digits.foldl (fun v c => v * 16 + (conv_hex_to_int c).getD 0) 0

/-- A line of a `maps` file. -/
structure maps_line where
  start_digits : List UInt8
  end_digits : List UInt8
  rest : List UInt8
  start_hex : ∀ c ∈ start_digits, (conv_hex_to_int c).isSome = true
  end_hex : ∀ c ∈ end_digits, (conv_hex_to_int c).isSome = true
  start_lt : hex_value start_digits < 2 ^ 64
  end_lt : hex_value end_digits < 2 ^ 64
  rest_plain : ∀ c ∈ rest, c ≠ 0 ∧ c ≠ char '\n'

/-- An address as `%08lx` prints it. -/
def hex_address (n : Nat) : List UInt8 :=
  List.replicate (8 - (numeral 16 n).length) (char '0') ++ numeral 16 n

namespace maps_line

variable (l : maps_line)

def start_addr : Nat := hex_value l.start_digits

def end_addr : Nat := hex_value l.end_digits

/-- The line in the file of the host. -/
def text : List UInt8 :=
  l.start_digits ++ (char '-' :: (l.end_digits ++ (char ' ' :: (l.rest ++ [char '\n']))))

/-- The line is in the space of the guest. -/
def kept : Prop := 0x400000 ≤ l.start_addr ∧ l.end_addr < 512 * 2 ^ 30

instance : Decidable l.kept := inferInstanceAs (Decidable (_ ∧ _))

/-- The line in the file of the guest. -/
def translated : List UInt8 :=
  hex_address (h_2_g l.start_addr) ++
    (char '-' :: (hex_address (h_2_g l.end_addr) ++ (char ' ' :: (l.rest ++ [char '\n']))))

/-- The line fits into the one buffer with its NUL, and so does what is printed into the other. -/
def fits : Prop := l.text.length < 512 ∧ (l.kept → l.translated.length < 512)

instance : Decidable l.fits := inferInstanceAs (Decidable (_ ∧ _))

end maps_line

/-- A file. -/
def maps_text (lines : List maps_line) : List UInt8 := lines.flatMap maps_line.text

/-- The lines of the guest, in their order. -/
def guest_maps (lines : List maps_line) : List UInt8 :=
  (lines.filter fun l => l.kept).flatMap maps_line.translated

/-! ## Reading a line -/

/-- A line that fits is read whole. -/
theorem getline_line {places : Nat} {body input : List UInt8} (hbody : char '\n' ∉ body)
    (hfits : body.length < places) :
    getline_internal places (body ++ (char '\n' :: input)) = (body ++ [char '\n'], input) := by
  induction body generalizing places with
  | nil =>
    cases places with
    | zero => simp at hfits
    | succ places => simp [getline_internal]
  | cons c body ih =>
    obtain ⟨hc, hbody⟩ := not_or.mp (mt List.mem_cons.mpr hbody)
    cases places with
    | zero => simp at hfits
    | succ places =>
      have hrest : getline_internal places (body ++ (char '\n' :: input)) = (body ++ [char '\n'], input) :=
        ih hbody (by simpa using hfits)
      rw [List.cons_append, getline_internal, if_neg (Ne.symm hc), hrest]
      rfl

/-- A hexadecimal digit is neither of the two separators, and not a NUL or the end of a line. -/
theorem hex_plain {c : UInt8} (hc : (conv_hex_to_int c).isSome = true) :
    c ≠ char '-' ∧ c ≠ char ' ' ∧ c ≠ 0 ∧ c ≠ char '\n' := by
  refine ⟨?_, ?_, ?_, ?_⟩ <;> rintro rfl <;> exact absurd hc (by decide)

section split

variable {digits line : List UInt8}

/-- The number so far, and the digits after it. -/
def hex_from (v : Nat) (digits : List UInt8) : Nat :=
  digits.foldl (fun v c => v * 16 + (conv_hex_to_int c).getD 0) v

/-- The product of the code wraps, which only matters for the result. -/
theorem hex_from_mod (v : Nat) (digits : List UInt8) :
    hex_from (v % 2 ^ 64) digits % 2 ^ 64 = hex_from v digits % 2 ^ 64 := by
  induction digits generalizing v with
  | nil => exact Nat.mod_mod v _
  | cons c digits ih =>
    show hex_from (v % 2 ^ 64 * 16 + _) digits % _ = hex_from (v * 16 + _) digits % _
    rw [← ih (v % 2 ^ 64 * 16 + _), ← ih (v * 16 + _)]
    congr 2
    omega

theorem split_start (hhex : ∀ c ∈ digits, (conv_hex_to_int c).isSome = true) (v e : Nat) :
    split_loop (digits ++ (char '-' :: line)) true (v % 2 ^ 64) e =
      split_loop line false (hex_from v digits % 2 ^ 64) e := by
  induction digits generalizing v with
  | nil => exact if_pos rfl
  | cons c digits ih =>
    have hc := hhex c List.mem_cons_self
    obtain ⟨digit, hdigit⟩ := Option.isSome_iff_exists.mp hc
    rw [List.cons_append, split_loop, if_neg (hex_plain hc).1, hdigit]
    show split_loop _ true ((v % 2 ^ 64 * 16 + digit) % 2 ^ 64) e = _
    rw [show (v % 2 ^ 64 * 16 + digit) % 2 ^ 64 = (v * 16 + digit) % 2 ^ 64 by omega,
      ih fun c hc => hhex c (List.mem_cons_of_mem _ hc)]
    show _ = split_loop line false (hex_from (v * 16 + (conv_hex_to_int c).getD 0) digits % _) e
    rw [hdigit, Option.getD_some]

theorem split_end (hhex : ∀ c ∈ digits, (conv_hex_to_int c).isSome = true) (s v : Nat) :
    split_loop (digits ++ (char ' ' :: line)) false s (v % 2 ^ 64) =
      some (s, hex_from v digits % 2 ^ 64, some line) := by
  induction digits generalizing v with
  | nil => exact if_pos rfl
  | cons c digits ih =>
    have hc := hhex c List.mem_cons_self
    obtain ⟨digit, hdigit⟩ := Option.isSome_iff_exists.mp hc
    rw [List.cons_append, split_loop, if_neg (hex_plain hc).2.1, hdigit]
    show split_loop _ false s ((v % 2 ^ 64 * 16 + digit) % 2 ^ 64) = _
    rw [show (v % 2 ^ 64 * 16 + digit) % 2 ^ 64 = (v * 16 + digit) % 2 ^ 64 by omega,
      ih fun c hc => hhex c (List.mem_cons_of_mem _ hc)]
    show _ = some (s, hex_from (v * 16 + (conv_hex_to_int c).getD 0) digits % _, some line)
    rw [hdigit, Option.getD_some]

end split

namespace maps_line

variable (l : maps_line)

/-- The line without its end. -/
def body : List UInt8 := l.start_digits ++ (char '-' :: (l.end_digits ++ (char ' ' :: l.rest)))

theorem text_body : l.text = l.body ++ [char '\n'] := by
  simp [text, body]

theorem text_ne_nil : l.text ≠ [] := by
  rw [text_body]
  exact List.append_ne_nil_of_right_ne_nil _ (List.cons_ne_nil _ _)

theorem body_plain : ∀ c ∈ l.body, c ≠ 0 ∧ c ≠ char '\n' := by
  intro c hc
  rcases List.mem_append.mp hc with hc | hc
  · exact (hex_plain (l.start_hex c hc)).2.2
  rcases List.mem_cons.mp hc with rfl | hc
  · decide
  rcases List.mem_append.mp hc with hc | hc
  · exact (hex_plain (l.end_hex c hc)).2.2
  rcases List.mem_cons.mp hc with rfl | hc
  · decide
  · exact l.rest_plain c hc

/-- The addresses of a line are read back, and the rest of it is what follows them. -/
theorem split_text : split_line l.text = some (l.start_addr, l.end_addr, some (l.rest ++ [char '\n'])) := by
  have hplain : l.text.takeWhile (· ≠ 0) = l.text := by
    rw [List.takeWhile_eq_self_iff]
    intro c hc
    rw [text_body] at hc
    rcases List.mem_append.mp hc with hc | hc
    · simpa using (l.body_plain c hc).1
    · rw [List.mem_singleton.mp hc]
      decide
  have hstart := @split_start _ (l.end_digits ++ (char ' ' :: (l.rest ++ [char '\n']))) l.start_hex 0 0
  have hend := @split_end _ (l.rest ++ [char '\n']) l.end_hex (hex_from 0 l.start_digits % 2 ^ 64) 0
  unfold split_line
  rw [hplain]
  refine (hstart.trans hend).trans ?_
  have hs : hex_from 0 l.start_digits % 2 ^ 64 = l.start_addr := Nat.mod_eq_of_lt l.start_lt
  have he : hex_from 0 l.end_digits % 2 ^ 64 = l.end_addr := Nat.mod_eq_of_lt l.end_lt
  rw [hs, he]

end maps_line

/-! ## Writing a line -/

theorem putInteger_hex {n : Nat} (hn : n < 2 ^ 64) :
    Runtime.putInteger (BitVec.ofNat 64 n) 16 8 ⟨true, false⟩ false false =
      some (hex_address n, max 8 (numeral 16 n).length) := by
  have hvalue : Runtime.magnitude false (BitVec.ofNat 64 n) = n := by
    show ((BitVec.ofNat 64 n).toNat : Int) = n
    rw [BitVec.toNat_ofNat, Nat.mod_eq_of_lt hn]
  have hnumeral : Runtime.signed_numeral 16 (n : Int) = numeral 16 n := by
    unfold Runtime.signed_numeral
    rw [if_neg (by omega), List.nil_append, Int.natAbs_natCast]
  rw [Runtime.putInteger_emits (by decide) (by decide), hvalue, hnumeral]
  rfl

/-- A conversion of the format, with what follows it. -/
theorem directive_hex {n : Nat} (hn : n < 2 ^ 64) (format : List UInt8) (args : List arg) :
    Runtime.directive (char '0' :: char '8' :: char 'l' :: char 'x' :: format)
      (.int (BitVec.ofNat 64 n) :: args) =
      some ((hex_address n, max 8 (numeral 16 n).length), format, args) := by
  have hdirective : Runtime.directive (char '0' :: char '8' :: char 'l' :: char 'x' :: format)
      (.int (BitVec.ofNat 64 n) :: args) =
      (Runtime.putInteger (BitVec.ofNat 64 n) 16 8 ⟨true, false⟩ false false).map
        fun r => (r, format, args) := rfl
  rw [hdirective, putInteger_hex hn]
  rfl

/-- The format of a line. -/
theorem print_line {s e : Nat} (hs : s < 2 ^ 64) (he : e < 2 ^ 64) (rest : List UInt8) :
    ∃ count, print (string "%08lx-%08lx %s")
        [.int (BitVec.ofNat 64 s), .int (BitVec.ofNat 64 e), .str (some rest)] =
      some (hex_address s ++ (char '-' :: (hex_address e ++ (char ' ' :: rest))), count) := by
  have hformat : string "%08lx-%08lx %s" =
      [char '%', char '0', char '8', char 'l', char 'x', char '-', char '%', char '0', char '8', char 'l',
        char 'x', char ' ', char '%', char 's'] := rfl
  have hstring : Runtime.directive [char 's'] [.str (some rest)] =
      some ((rest, rest.length), [], []) := rfl
  unfold print
  rw [hformat]
  simp only [List.length_cons, List.length_nil]
  rw [Runtime.print_loop_directive (by decide) (directive_hex hs _ _),
    Runtime.print_loop_char (by decide),
    Runtime.print_loop_directive (by decide) (directive_hex he _ _),
    Runtime.print_loop_char (by decide),
    Runtime.print_loop_directive (by decide) hstring]
  simp only [Runtime.print_loop, Option.map_some, List.append_nil]
  exact ⟨_, rfl⟩

/-- A line that fits is printed, or dropped. -/
theorem rewrite_text {l : maps_line} (hfits : l.fits) :
    rewrite_line l.text = .ok (if l.kept then l.translated else []) := by
  have hs : h_2_g l.start_addr < 2 ^ 64 := l.start_lt
  have he : h_2_g l.end_addr < 2 ^ 64 := l.end_lt
  obtain ⟨count, hprint⟩ := print_line hs he (l.rest ++ [char '\n'])
  unfold rewrite_line
  rw [l.split_text]
  dsimp only
  by_cases hkept : l.kept
  · have hguest : 0x400000 ≤ l.start_addr ∧ l.end_addr < 512 * 1024 * 1024 * 1024 := hkept
    rw [if_pos hguest, if_pos hkept, hprint]
    exact if_pos (hfits.2 hkept)
  · rw [if_neg hkept]
    exact if_neg hkept

/-- Line after line. -/
theorem write_lines_text {lines : List maps_line} (hfits : ∀ l ∈ lines, l.fits) {n : Nat}
    (hn : lines.length ≤ n) : write_lines n (maps_text lines) = .ok (guest_maps lines) := by
  induction lines generalizing n with
  | nil => cases n <;> rfl
  | cons l lines ih =>
    cases n with
    | zero => simp at hn
    | succ n =>
      have hl := hfits l List.mem_cons_self
      have hlines := ih (fun k hk => hfits k (List.mem_cons_of_mem l hk)) (Nat.le_of_succ_le_succ hn)
      have hread : getline_internal 511 (maps_text (l :: lines)) = (l.text, maps_text lines) := by
        have hlength := hl.1
        rw [l.text_body, List.length_append, List.length_singleton] at hlength
        have h := @getline_line 511 l.body (maps_text lines) (fun h => (l.body_plain _ h).2 rfl)
          (by omega)
        rw [show maps_text (l :: lines) = l.text ++ maps_text lines from rfl, l.text_body,
          List.append_assoc]
        exact h
      obtain ⟨c, cs, hcs⟩ := List.exists_cons_of_ne_nil l.text_ne_nil
      have hrewrite := rewrite_text hl
      rw [hcs] at hread hrewrite
      unfold write_lines
      rw [hread]
      dsimp only
      rw [hrewrite, hlines]
      show Except.ok ((if l.kept then l.translated else []) ++ guest_maps lines) = _
      unfold guest_maps
      by_cases hkept : l.kept
      · rw [if_pos hkept, List.filter_cons_of_pos (by simpa using hkept)]
        rfl
      · rw [if_neg hkept, List.filter_cons_of_neg (by simpa using hkept)]
        rfl

/-- What the guest reads are the lines of its space, in the order of the host, when every line fits:
    no digit is fatal, and no buffer overflows. -/
theorem guest_maps_written {lines : List maps_line} (hfits : ∀ l ∈ lines, l.fits) :
    write_offset_proc_self_maps (maps_text lines) = .ok (guest_maps lines) := by
  refine write_lines_text hfits ?_
  unfold maps_text
  rw [List.length_flatMap]
  induction lines with
  | nil => exact Nat.le_refl _
  | cons l lines ih =>
    have hl : 0 < l.text.length := List.length_pos_iff.mpr l.text_ne_nil
    have hlines := ih fun k hk => hfits k (List.mem_cons_of_mem l hk)
    simp only [List.length_cons, List.map_cons, List.sum_cons]
    omega

theorem plain_of_all {rest : List UInt8} (h : rest.all (fun c => c != 0 && c != char '\n') = true) :
    ∀ c ∈ rest, c ≠ 0 ∧ c ≠ char '\n' := by
  intro c hc
  have hplain := List.all_eq_true.mp h c hc
  simpa using hplain

/-- The text of a program, and a mapping above the guest. -/
def program_line : maps_line where
  start_digits := string "00400000"
  end_digits := string "00401000"
  rest := string "r-xp /bin/cat"
  start_hex := List.all_eq_true.mp (by decide)
  end_hex := List.all_eq_true.mp (by decide)
  start_lt := by decide
  end_lt := by decide
  rest_plain := plain_of_all (by decide)

def host_line : maps_line where
  start_digits := string "7f0000000000"
  end_digits := string "7f0000001000"
  rest := string "rw-p"
  start_hex := List.all_eq_true.mp (by decide)
  end_hex := List.all_eq_true.mp (by decide)
  start_lt := by decide
  end_lt := by decide
  rest_plain := plain_of_all (by decide)

theorem two_lines_written :
    write_offset_proc_self_maps (maps_text [program_line, host_line]) =
        .ok (guest_maps [program_line, host_line]) ∧
      guest_maps [program_line, host_line] = string "00400000-00401000 r-xp /bin/cat\n" :=
  ⟨guest_maps_written (by unfold maps_line.fits maps_line.kept; decide +kernel), by decide +kernel⟩

/-- The text of a program under a long path. -/
def long_path_line : maps_line where
  start_digits := string "00400000"
  end_digits := string "00401000"
  rest := string "r-xp /" ++ List.replicate 500 (char 'x')
  start_hex := List.all_eq_true.mp (by decide)
  end_hex := List.all_eq_true.mp (by decide)
  start_lt := by decide
  end_lt := by decide
  rest_plain := by
    intro c hc
    rcases List.mem_append.mp hc with hc | hc
    · exact plain_of_all (by decide) c hc
    · rw [List.eq_of_mem_replicate hc]
      decide

/-- What the buffer leaves of its line is no line. -/
theorem long_path_fatal :
    write_offset_proc_self_maps (maps_text [long_path_line]) = .error .fatal ∧
      write_offset_proc_self_maps (maps_text [long_path_line]) ≠ .ok (guest_maps [long_path_line]) := by
  constructor <;> decide +kernel

end Umeq.Syscall
