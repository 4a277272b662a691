import Mathlib.Data.List.DropRight
import Mathlib.Data.List.TakeWhile
import Umeq.Runtime.Stdio

/-! # The first line of a script

    `shebang.c`: `execve` reads the start of a file into a local buffer of 128 bytes, which nobody
    clears, and looks for the interpreter there. The scanning loops do not know how many bytes were
    read, so that they may run into the bytes that were in the buffer before. The strings are left
    in the buffer, whose lifetime ends when the function returns.

    * `parse_shebang`: the loops of the code, with the cursor as an index of the buffer.
    * `shebang_pointers.at_return`: the strings, read while the buffer still holds them.
    * `script_rule`: the rule of Linux, for a text.
    * `bounded`: the files whose own bytes stop the loops.
-/

namespace Umeq.Syscall

open Umeq.Runtime (char string)

/-! ## `shebang.c` -/

def BINPRM_BUF_SIZE : Nat := 128

/-- The bytes of a local `buf` before anything is read into it. -/
structure stale_buffer where
  bytes : List UInt8
  length_bytes : bytes.length = BINPRM_BUF_SIZE

/-- A return value and two strings. -/
structure shebang where
  ret : Int
  i_name : Option (List UInt8)
  i_arg : Option (List UInt8)
  deriving DecidableEq, Repr

/-- What `parse_shebang` leaves to its caller: two pointers into its automatic `buf`, which has
    these bytes at the return. -/
structure shebang_pointers where
  ret : Int
  i_name : Option Nat
  i_arg : Option Nat
  buf : List UInt8

def ENOENT : Int := 2

def ENOEXEC : Int := 8

def is_blank (c : UInt8) : Bool := c = char ' ' || c = char '\t'

/-- The place of a character in the string, if it has one. -/
def strchr_local : List UInt8 → UInt8 → Option Nat
  | [], _ => none
  | s :: rest, c =>
    if s = c then some 0
    else if s = 0 then none
    else (strchr_local rest c).map (· + 1)

/-- `while (cp > buf)`: blanks in front of the cursor are overwritten. -/
def trim : List UInt8 → Nat → List UInt8
  | buf, 0 => buf
  | buf, cp + 1 => if is_blank (buf.getD cp 0) then trim (buf.set cp 0) cp else buf

/-- `for (; p(*cp); cp++);` -/
def skip (p : UInt8 → Bool) (buf : List UInt8) (cp : Nat) : Nat :=
  cp + ((buf.drop cp).takeWhile p).length

/-- `while (is_blank(*cp)) *cp++ = '\0';` for at most as many blanks as given. -/
def clear_blanks : Nat → List UInt8 → Nat → List UInt8 × Nat
  | 0, buf, cp => (buf, cp)
  | n + 1, buf, cp => if is_blank (buf.getD cp 0) then clear_blanks n (buf.set cp 0) (cp + 1) else (buf, cp)

/-- The string a pointer designates. -/
def c_string (buf : List UInt8) (cp : Nat) : List UInt8 := (buf.drop cp).takeWhile (· ≠ 0)

/-- What a caller gets that reads the strings when `bytes` are in the place of the buffer. -/
def shebang_pointers.strings (p : shebang_pointers) (bytes : List UInt8) : shebang :=
  ⟨p.ret, p.i_name.map (c_string bytes), p.i_arg.map (c_string bytes)⟩

def shebang_pointers.at_return (p : shebang_pointers) : shebang := p.strings p.buf

/-- The two strings of a line. -/
def split_words (buf : List UInt8) : shebang_pointers :=
  let i_name := skip is_blank buf 2
  if buf.getD i_name 0 = 0 then ⟨-ENOEXEC, none, none, buf⟩
  else
    let cp := skip (fun c => c ≠ 0 && !is_blank c) buf i_name
    let (buf, cp) := clear_blanks BINPRM_BUF_SIZE buf cp
    ⟨0, some i_name, if buf.getD cp 0 ≠ 0 then some cp else none, buf⟩

/-- The buffer after the read. -/
def read_buffer (file : List UInt8) (buf : stale_buffer) : List UInt8 :=
  file.take BINPRM_BUF_SIZE ++ buf.bytes.drop file.length

/-- What `parse_shebang` does with its buffer. -/
def shebang_handling (buf : List UInt8) : shebang_pointers :=
  if buf.getD 0 0 = char '#' ∧ buf.getD 1 0 = char '!' then
    let buf := buf.set (BINPRM_BUF_SIZE - 1) 0
    let cp := (strchr_local buf (char '\n')).getD (BINPRM_BUF_SIZE - 1)
    let buf := buf.set cp 0
    split_words (trim buf cp)
  else ⟨0, none, none, buf⟩

/-- For the bytes of the file, if they can be read. -/
def parse_shebang (file : Option (List UInt8)) (buf : stale_buffer) : shebang_pointers :=
  match file with
  | none => ⟨-ENOENT, none, none, buf.bytes⟩
  | some file => shebang_handling (read_buffer file buf)

/-! ## The rule of Linux -/

/-- The first word of a line, and what follows it. -/
def script_words (line : List UInt8) : shebang :=
  let name := line.dropWhile is_blank
  let arg := (name.dropWhile (!is_blank ·)).dropWhile is_blank
  if name = [] then ⟨-ENOEXEC, none, none⟩
  else ⟨0, some (name.takeWhile (!is_blank ·)), if arg = [] then none else some arg⟩

/-- The line of a text without the blanks at its end. A string ends at a NUL. -/
def script_line (text : List UInt8) : List UInt8 :=
  ((text.takeWhile (· ≠ char '\n')).rdropWhile is_blank).takeWhile (· ≠ 0)

def script_rule : List UInt8 → shebang
  | a :: b :: text =>
    if a = char '#' ∧ b = char '!' then script_words (script_line text) else ⟨0, none, none⟩
  | _ => ⟨0, none, none⟩

/-- The bytes of the file stop every loop. -/
def bounded (file : List UInt8) : Prop :=
  if file.take 2 = string "#!" then BINPRM_BUF_SIZE - 1 ≤ file.length ∨ char '\n' ∈ file ∨ 0 ∈ file
  else file ≠ [] ∧ file ≠ [char '#']

instance (file : List UInt8) : Decidable (bounded file) := inferInstanceAs (Decidable (ite _ _ _))

/-! ## The loops -/

theorem trim_append (line rest : List UInt8) :
    ∃ k, trim (line ++ rest) line.length =
      line.rdropWhile is_blank ++ (List.replicate k 0 ++ rest) := by
  induction line using List.reverseRecOn generalizing rest with
  | nil => exact ⟨0, by simp [trim]⟩
  | append_singleton line c ih =>
    have hget : (line ++ [c] ++ rest).getD line.length 0 = c := by simp
    rw [List.length_append, List.length_singleton, trim, hget]
    by_cases hc : is_blank c = true
    · obtain ⟨k, hk⟩ := ih (0 :: rest)
      refine ⟨k + 1, ?_⟩
      have hset : (line ++ [c] ++ rest).set line.length 0 = line ++ 0 :: rest := by simp
      rw [if_pos hc, hset, hk, List.rdropWhile_concat_pos _ _ _ hc, List.replicate_succ', List.append_assoc]
      rfl
    · refine ⟨0, ?_⟩
      rw [if_neg hc, List.rdropWhile_concat_neg _ _ _ hc]
      rfl

theorem strchr_found {line rest : List UInt8} {d : UInt8} (hline : ∀ c ∈ line, c ≠ d ∧ c ≠ 0) :
    strchr_local (line ++ d :: rest) d = some line.length := by
  induction line with
  | nil => exact if_pos rfl
  | cons c line ih =>
    obtain ⟨hd, hnul⟩ := hline c List.mem_cons_self
    rw [List.cons_append, strchr_local, if_neg hd, if_neg hnul,
      ih fun c hc => hline c (List.mem_cons_of_mem _ hc)]
    rfl

/-- The search ends at a NUL. -/
theorem strchr_missing {line rest : List UInt8} {d : UInt8} (hd : d ≠ 0)
    (hline : ∀ c ∈ line, c ≠ d ∧ c ≠ 0) : strchr_local (line ++ 0 :: rest) d = none := by
  induction line with
  | nil =>
    show (if (0 : UInt8) = d then _ else if (0 : UInt8) = 0 then none else _) = none
    rw [if_neg (Ne.symm hd), if_pos rfl]
  | cons c line ih =>
    obtain ⟨hcd, hnul⟩ := hline c List.mem_cons_self
    rw [List.cons_append, strchr_local, if_neg hcd, if_neg hnul,
      ih fun c hc => hline c (List.mem_cons_of_mem _ hc)]
    rfl

theorem takeWhile_stop {p : UInt8 → Bool} {word rest : List UInt8} {d : UInt8}
    (hword : ∀ c ∈ word, p c = true) (hd : p d = false) :
    (word ++ d :: rest).takeWhile p = word := by
  rw [List.takeWhile_append_of_pos hword, List.takeWhile_cons, if_neg (by simp [hd]), List.append_nil]

theorem skip_append {p : UInt8 → Bool} {front word rest : List UInt8} {d : UInt8}
    (hword : ∀ c ∈ word, p c = true) (hd : p d = false) :
    skip p (front ++ (word ++ d :: rest)) front.length = front.length + word.length := by
  unfold skip
  rw [List.drop_left, takeWhile_stop hword hd]

theorem clear_blanks_append {front blanks rest : List UInt8} {d : UInt8} {n : Nat}
    (hblanks : ∀ c ∈ blanks, is_blank c = true) (hd : is_blank d = false) (hn : blanks.length < n) :
    clear_blanks n (front ++ (blanks ++ d :: rest)) front.length =
      (front ++ (List.replicate blanks.length 0 ++ d :: rest), front.length + blanks.length) := by
  induction blanks generalizing front n with
  | nil =>
    cases n with
    | zero => simp at hn
    | succ n => simp [clear_blanks, hd]
  | cons c blanks ih =>
    cases n with
    | zero => simp at hn
    | succ n =>
      have hget : (front ++ (c :: blanks ++ d :: rest)).getD front.length 0 = c := by simp
      have hset : (front ++ (c :: blanks ++ d :: rest)).set front.length 0 =
          (front ++ [0]) ++ (blanks ++ d :: rest) := by simp
      have hlength : (front ++ [(0 : UInt8)]).length = front.length + 1 := by simp
      have h := @ih (front ++ [0]) n (fun c hc => hblanks c (List.mem_cons_of_mem _ hc))
        (Nat.lt_of_succ_lt_succ hn)
      rw [clear_blanks, hget, if_pos (hblanks c List.mem_cons_self), hset, ← hlength, h]
      simp [List.replicate_succ, Nat.add_assoc, Nat.add_comm 1]

theorem c_string_append {front word rest : List UInt8} (hword : ∀ c ∈ word, c ≠ 0) :
    c_string (front ++ (word ++ 0 :: rest)) front.length = word := by
  unfold c_string
  rw [List.drop_left]
  exact takeWhile_stop (by simpa using hword) (by decide)

/-- The byte under a cursor that a loop has moved, in front of the NUL of a string. -/
theorem cursor_byte (p : UInt8 → Bool) (text rest : List UInt8) :
    ∃ d others, text.dropWhile p ++ 0 :: rest = d :: others ∧
      (text.dropWhile p = [] ∧ d = 0 ∨ text.dropWhile p ≠ [] ∧ p d = false ∧ d ∈ text) := by
  cases hdrop : text.dropWhile p with
  | nil => exact ⟨0, rest, rfl, .inl ⟨rfl, rfl⟩⟩
  | cons d others =>
    have hhead : p d = false := by
      have h := List.head_dropWhile_not p (l := text) (by rw [hdrop]; simp)
      simpa [hdrop] using h
    have hmem : d ∈ text := (List.dropWhile_suffix p).subset (hdrop ▸ List.mem_cons_self)
    exact ⟨d, others ++ 0 :: rest, rfl, .inr ⟨List.cons_ne_nil _ _, hhead, hmem⟩⟩

theorem getD_front (front others : List UInt8) (d : UInt8) :
    (front ++ d :: others).getD front.length 0 = d := by
  simp

/-- The name is ended by NULs in the place of the blanks after it. -/
theorem clear_name {front text rest : List UInt8} (htext : ∀ c ∈ text, c ≠ 0)
    (hlength : text.length < BINPRM_BUF_SIZE) :
    ∃ k, clear_blanks BINPRM_BUF_SIZE (front ++ (text ++ 0 :: rest))
        (skip (fun c => c ≠ 0 && !is_blank c) (front ++ (text ++ 0 :: rest)) front.length) =
      (front ++ (text.takeWhile (!is_blank ·) ++ (List.replicate k 0 ++
          ((text.dropWhile (!is_blank ·)).dropWhile is_blank ++ 0 :: rest))),
        front.length + (text.takeWhile (!is_blank ·)).length + k) ∧
      (k = 0 → (text.dropWhile (!is_blank ·)).dropWhile is_blank = []) := by
  have hsplit : text.takeWhile (!is_blank ·) ++ text.dropWhile (!is_blank ·) = text :=
    List.takeWhile_append_dropWhile
  have hword : ∀ c ∈ text.takeWhile (!is_blank ·), (c ≠ 0 && !is_blank c) = true := by
    intro c hc
    have hnul := htext c ((List.takeWhile_prefix _).subset hc)
    have hblank := List.mem_takeWhile_imp hc
    simpa [hnul] using hblank
  obtain ⟨d, others, hd, hbyte⟩ := cursor_byte (!is_blank ·) text rest
  have hstop : (d ≠ 0 && !is_blank d) = false := by
    rcases hbyte with ⟨-, rfl⟩ | ⟨-, h, -⟩
    · rfl
    · simp [h]
  have hname : front ++ (text ++ 0 :: rest) =
      front ++ (text.takeWhile (!is_blank ·) ++ d :: others) := by
    rw [← hd, ← List.append_assoc (text.takeWhile _), hsplit]
  have hskip := @skip_append _ front _ others d hword hstop
  rw [hname, hskip, ← hd]
  have hrest : (text.dropWhile (!is_blank ·)).takeWhile is_blank ++
      (text.dropWhile (!is_blank ·)).dropWhile is_blank = text.dropWhile (!is_blank ·) :=
    List.takeWhile_append_dropWhile
  have hshorter : ((text.dropWhile (!is_blank ·)).takeWhile is_blank).length < BINPRM_BUF_SIZE :=
    Nat.lt_of_le_of_lt (Nat.le_trans (List.takeWhile_prefix _).length_le
      (List.dropWhile_suffix _).length_le) hlength
  have hnone : ((text.dropWhile (!is_blank ·)).takeWhile is_blank).length = 0 →
      (text.dropWhile (!is_blank ·)).dropWhile is_blank = [] := by
    intro hzero
    rcases hbyte with ⟨hnil, -⟩ | ⟨hne, hblank, -⟩
    · rw [hnil]
      rfl
    · -- what follows the name starts with a blank
      obtain ⟨e, es, hes⟩ := List.exists_cons_of_ne_nil hne
      rw [hes] at hd hzero
      rw [(List.cons.inj hd).1, List.takeWhile_cons, if_pos (by simpa using hblank)] at hzero
      exact absurd hzero (Nat.succ_ne_zero _)
  generalize text.dropWhile (!is_blank ·) = after at *
  generalize text.takeWhile (!is_blank ·) = word at *
  obtain ⟨e, es, he, hend⟩ := cursor_byte is_blank after rest
  have hblank : is_blank e = false := by
    rcases hend with ⟨-, rfl⟩ | ⟨-, h, -⟩
    · rfl
    · exact h
  have hblanks : ∀ c ∈ after.takeWhile is_blank, is_blank c = true := fun c => List.mem_takeWhile_imp
  have hclear := @clear_blanks_append (front ++ word) _ es e _ hblanks hblank hshorter
  rw [← he, ← List.append_assoc (after.takeWhile is_blank), hrest, List.append_assoc,
    List.append_assoc, List.length_append] at hclear
  exact ⟨_, hclear, hnone⟩

/-- The cursors of the code end up at the words of the line. -/
theorem split_words_line {x y : UInt8} {line rest : List UInt8} (hline : ∀ c ∈ line, c ≠ 0)
    (hlength : line.length < BINPRM_BUF_SIZE) :
    (split_words (x :: y :: (line ++ 0 :: rest))).at_return = script_words line := by
  have hsplit : line.takeWhile is_blank ++ line.dropWhile is_blank = line :=
    List.takeWhile_append_dropWhile
  have hblanks : ∀ c ∈ line.takeWhile is_blank, is_blank c = true := fun c => List.mem_takeWhile_imp
  obtain ⟨d, others, hd, hbyte⟩ := cursor_byte is_blank line rest
  have hblank : is_blank d = false := by
    rcases hbyte with ⟨-, rfl⟩ | ⟨-, h, -⟩
    · rfl
    · exact h
  -- the first loop
  have hskip : skip is_blank (x :: y :: (line ++ 0 :: rest)) 2 =
      (x :: y :: line.takeWhile is_blank).length := by
    have h := @skip_append is_blank [x, y] _ others d hblanks hblank
    rw [← hd, ← List.append_assoc (line.takeWhile is_blank), hsplit] at h
    rw [List.length_cons, List.length_cons, Nat.add_assoc, Nat.add_comm _ (1 + 1)]
    exact h
  have hbuf : x :: y :: (line ++ 0 :: rest) =
      (x :: y :: line.takeWhile is_blank) ++ (line.dropWhile is_blank ++ 0 :: rest) := by
    rw [List.cons_append, List.cons_append, ← List.append_assoc, hsplit]
  unfold split_words script_words
  rw [hskip, hbuf]
  generalize x :: y :: line.takeWhile is_blank = front at *
  dsimp only
  rcases hbyte with ⟨hnil, rfl⟩ | ⟨hne, -, hmem⟩
  · rw [hd, getD_front, if_pos rfl, if_pos hnil]
    rfl
  have hget : (front ++ (line.dropWhile is_blank ++ 0 :: rest)).getD front.length 0 ≠ 0 := by
    rw [hd, getD_front]
    exact hline d hmem
  have htext : ∀ c ∈ line.dropWhile is_blank, c ≠ 0 :=
    fun c hc => hline c ((List.dropWhile_suffix _).subset hc)
  have hshorter : (line.dropWhile is_blank).length < BINPRM_BUF_SIZE :=
    Nat.lt_of_le_of_lt (List.dropWhile_suffix _).length_le hlength
  obtain ⟨k, hclear, hk⟩ := @clear_name front _ rest htext hshorter
  rw [if_neg hget, if_neg hne, hclear]
  dsimp only
  have hsuffix : ((line.dropWhile is_blank).dropWhile (!is_blank ·)).dropWhile is_blank <:+ line :=
    ((List.dropWhile_suffix _).trans (List.dropWhile_suffix _)).trans (List.dropWhile_suffix _)
  have hword : ∀ c ∈ (line.dropWhile is_blank).takeWhile (!is_blank ·), c ≠ 0 :=
    fun c hc => htext c ((List.takeWhile_prefix _).subset hc)
  generalize (line.dropWhile is_blank).takeWhile (!is_blank ·) = word at *
  generalize ((line.dropWhile is_blank).dropWhile (!is_blank ·)).dropWhile is_blank = arg at *
  have hname : c_string (front ++ (word ++ (List.replicate k 0 ++ (arg ++ 0 :: rest)))) front.length =
      word := by
    cases k with
    | zero =>
      rw [hk rfl]
      exact c_string_append hword
    | succ k => exact c_string_append hword
  have hcursor : front.length + word.length + k = (front ++ (word ++ List.replicate k 0)).length := by
    simp [Nat.add_assoc]
  have happend : front ++ (word ++ (List.replicate k 0 ++ (arg ++ 0 :: rest))) =
      front ++ (word ++ List.replicate k 0) ++ (arg ++ 0 :: rest) := by
    simp
  have harg : c_string (front ++ (word ++ (List.replicate k 0 ++ (arg ++ 0 :: rest))))
      (front.length + word.length + k) = arg := by
    rw [happend, hcursor]
    exact c_string_append fun c hc => hline c (hsuffix.subset hc)
  have hbyte : (front ++ (word ++ (List.replicate k 0 ++ (arg ++ 0 :: rest)))).getD
      (front.length + word.length + k) 0 = (arg ++ 0 :: rest).head (by simp) := by
    rw [happend, hcursor]
    cases arg with
    | nil => exact getD_front _ _ _
    | cons c arg => exact getD_front _ _ _
  unfold shebang_pointers.at_return shebang_pointers.strings
  rw [hbyte, Option.map_some, hname]
  cases arg with
  | nil => rfl
  | cons c arg =>
    have hc : c ≠ 0 := hline c (hsuffix.subset List.mem_cons_self)
    have hhead : (c :: arg ++ 0 :: rest).head (by simp) ≠ 0 := hc
    rw [if_pos hhead, Option.map_some, harg, if_neg (List.cons_ne_nil _ _)]

/-! ## The line of a buffer -/

/-- A text up to the first character that ends a line or a string. -/
theorem first_stop (text : List UInt8) :
    (∃ line rest, text = line ++ char '\n' :: rest ∧ ∀ c ∈ line, c ≠ char '\n' ∧ c ≠ 0) ∨
      (∃ line rest, text = line ++ 0 :: rest ∧ ∀ c ∈ line, c ≠ char '\n' ∧ c ≠ 0) ∨
      ∀ c ∈ text, c ≠ char '\n' ∧ c ≠ 0 := by
  induction text with
  | nil => exact .inr (.inr fun c hc => nomatch hc)
  | cons d text ih =>
    by_cases hnewline : d = char '\n'
    · exact .inl ⟨[], text, by rw [hnewline]; rfl, fun c hc => nomatch hc⟩
    by_cases hnul : d = 0
    · exact .inr (.inl ⟨[], text, by rw [hnul]; rfl, fun c hc => nomatch hc⟩)
    have hcons : ∀ {line : List UInt8}, (∀ c ∈ line, c ≠ char '\n' ∧ c ≠ 0) →
        ∀ c ∈ d :: line, c ≠ char '\n' ∧ c ≠ 0 := by
      intro line hline c hc
      rcases List.mem_cons.mp hc with rfl | hc
      · exact ⟨hnewline, hnul⟩
      · exact hline c hc
    rcases ih with ⟨line, rest, rfl, hline⟩ | ⟨line, rest, rfl, hline⟩ | htext
    · exact .inl ⟨d :: line, rest, rfl, hcons hline⟩
    · exact .inr (.inl ⟨d :: line, rest, rfl, hcons hline⟩)
    · exact .inr (.inr (hcons htext))

/-- Trimming stops at a character that is no blank. -/
theorem rdropWhile_front (front line : List UInt8) {d : UInt8} (hd : is_blank d = false) :
    (front ++ d :: line).rdropWhile is_blank = front ++ d :: line.rdropWhile is_blank := by
  induction line using List.reverseRecOn with
  | nil => exact List.rdropWhile_concat_neg _ _ _ (by simp [hd])
  | append_singleton line c ih =>
    rw [← List.cons_append, ← List.append_assoc]
    by_cases hc : is_blank c = true
    · rw [List.rdropWhile_concat_pos _ _ _ hc, List.rdropWhile_concat_pos _ _ _ hc, ih]
    · rw [List.rdropWhile_concat_neg _ _ _ hc, List.rdropWhile_concat_neg _ _ _ hc]
      simp

section lines

variable {line rest : List UInt8} (hline : ∀ c ∈ line, c ≠ char '\n' ∧ c ≠ 0)

include hline

theorem newline_free : line.takeWhile (· ≠ char '\n') = line :=
  List.takeWhile_eq_self_iff.mpr fun c hc => by simpa using (hline c hc).1

theorem script_line_free : script_line line = line.rdropWhile is_blank := by
  unfold script_line
  rw [newline_free hline]
  refine List.takeWhile_eq_self_iff.mpr fun c hc => ?_
  simpa using (hline c ((List.rdropWhile_prefix _ _).subset hc)).2

theorem script_line_newline : script_line (line ++ char '\n' :: rest) = line.rdropWhile is_blank := by
  have htake : (line ++ char '\n' :: rest).takeWhile (· ≠ char '\n') = line :=
    takeWhile_stop (fun c hc => by simpa using (hline c hc).1) (by decide)
  rw [← script_line_free hline]
  unfold script_line
  rw [htake, newline_free hline]

/-- Blanks in front of a NUL are not at the end of the line. -/
theorem script_line_nul : script_line (line ++ 0 :: rest) = line := by
  have htake : (line ++ 0 :: rest).takeWhile (· ≠ char '\n') =
      line ++ 0 :: rest.takeWhile (· ≠ char '\n') := by
    rw [List.takeWhile_append_of_pos fun c hc => by simpa using (hline c hc).1, List.takeWhile_cons,
      if_pos (by decide)]
  unfold script_line
  rw [htake, rdropWhile_front _ _ (by decide)]
  exact takeWhile_stop (fun c hc => by simpa using (hline c hc).2) (by decide)

end lines

theorem replicate_cons (k : Nat) (rest : List UInt8) :
    List.replicate k 0 ++ 0 :: rest = 0 :: (List.replicate k 0 ++ rest) := by
  rw [← List.cons_append, ← List.replicate_succ, List.replicate_succ', List.append_assoc]
  rfl

/-- The cut of a line with its end marked by a NUL. -/
theorem split_words_trimmed {x y : UInt8} {line rest : List UInt8} {k : Nat}
    (hline : ∀ c ∈ line, c ≠ char '\n' ∧ c ≠ 0) (hlength : line.length < BINPRM_BUF_SIZE) :
    (split_words (x :: y :: (line.rdropWhile is_blank ++
      (List.replicate k 0 ++ 0 :: rest)))).at_return =
      script_words (line.rdropWhile is_blank) := by
  rw [replicate_cons]
  exact split_words_line (fun c hc => (hline c ((List.rdropWhile_prefix _ _).subset hc)).2)
    (Nat.lt_of_le_of_lt (List.rdropWhile_prefix _ _).length_le hlength)

/-- `#!` is no part of what is searched or trimmed. -/
theorem mark_plain {line : List UInt8} (hline : ∀ c ∈ line, c ≠ char '\n' ∧ c ≠ 0) :
    ∀ c ∈ char '#' :: char '!' :: line, c ≠ char '\n' ∧ c ≠ 0 := by
  intro c hc
  rcases List.mem_cons.mp hc with rfl | hc
  · decide
  rcases List.mem_cons.mp hc with rfl | hc
  · decide
  · exact hline c hc

theorem mark_rdropWhile (line : List UInt8) :
    (char '#' :: char '!' :: line).rdropWhile is_blank =
      char '#' :: char '!' :: line.rdropWhile is_blank :=
  rdropWhile_front [char '#'] line (by decide)

/-- The code on a buffer that starts like a script: the rule for all of its bytes but the last. -/
theorem parse_line {text : List UInt8} (hlength : text.length = 125) :
    (split_words (trim
      ((char '#' :: char '!' :: (text ++ [0])).set
        ((strchr_local (char '#' :: char '!' :: (text ++ [0])) (char '\n')).getD (BINPRM_BUF_SIZE - 1)) 0)
      ((strchr_local (char '#' :: char '!' :: (text ++ [0])) (char '\n')).getD
        (BINPRM_BUF_SIZE - 1)))).at_return = script_words (script_line text) := by
  -- without a newline the cursor is at the last byte, which is a NUL
  have hend : ∃ k, trim ((char '#' :: char '!' :: (text ++ [0])).set (BINPRM_BUF_SIZE - 1) 0)
      (BINPRM_BUF_SIZE - 1) = char '#' :: char '!' :: (text.rdropWhile is_blank ++
        (List.replicate k 0 ++ [0])) := by
    obtain ⟨k, hk⟩ := trim_append (char '#' :: char '!' :: text) [0]
    have hcursor : (char '#' :: char '!' :: text).length = BINPRM_BUF_SIZE - 1 := by
      rw [List.length_cons, List.length_cons, hlength]
      rfl
    have hset : (char '#' :: char '!' :: text ++ [(0 : UInt8)]).set
        (char '#' :: char '!' :: text).length 0 = char '#' :: char '!' :: text ++ [0] := by simp
    rw [mark_rdropWhile, ← hset, hcursor] at hk
    exact ⟨k, hk⟩
  rcases first_stop text with ⟨line, rest, rfl, hline⟩ | ⟨line, rest, rfl, hline⟩ | htext
  · have hshort : line.length < BINPRM_BUF_SIZE := by
      have h : line.length ≤ (line ++ char '\n' :: rest).length := by simp
      exact Nat.lt_of_le_of_lt (hlength ▸ h) (by decide)
    have hstrchr := @strchr_found _ (rest ++ [0]) _ (mark_plain hline)
    obtain ⟨k, hk⟩ := trim_append (char '#' :: char '!' :: line) (0 :: (rest ++ [0]))
    have hbuf : char '#' :: char '!' :: (line ++ char '\n' :: rest ++ [0]) =
        char '#' :: char '!' :: line ++ char '\n' :: (rest ++ [0]) := by simp
    have hset : (char '#' :: char '!' :: line ++ char '\n' :: (rest ++ [0])).set
        (char '#' :: char '!' :: line).length 0 = char '#' :: char '!' :: line ++ 0 :: (rest ++ [0]) := by
      simp
    rw [hbuf, hstrchr, Option.getD_some, hset, hk, mark_rdropWhile, script_line_newline hline]
    exact split_words_trimmed hline hshort
  · have hshort : line.length < BINPRM_BUF_SIZE := by
      have h : line.length ≤ (line ++ 0 :: rest).length := by simp
      exact Nat.lt_of_le_of_lt (hlength ▸ h) (by decide)
    have hstrchr := @strchr_missing _ (rest ++ [0]) (char '\n') (by decide) (mark_plain hline)
    have hbuf : char '#' :: char '!' :: (line ++ 0 :: rest ++ [0]) =
        char '#' :: char '!' :: line ++ 0 :: (rest ++ [0]) := by simp
    obtain ⟨k, hk⟩ := hend
    rw [rdropWhile_front _ _ (by decide), hbuf] at hk
    rw [hbuf, hstrchr, Option.getD_none, hk, script_line_nul hline, List.append_assoc]
    exact split_words_line (fun c hc => (hline c hc).2) hshort
  · have hstrchr := @strchr_missing _ [] (char '\n') (by decide) (mark_plain htext)
    obtain ⟨k, hk⟩ := hend
    rw [show strchr_local (char '#' :: char '!' :: (text ++ [0])) (char '\n') = none from hstrchr,
      Option.getD_none, hk, script_line_free htext]
    exact split_words_trimmed htext (by rw [hlength]; decide)

theorem length_read_buffer (file : List UInt8) (buf : stale_buffer) :
    (read_buffer file buf).length = BINPRM_BUF_SIZE := by
  unfold read_buffer
  rw [List.length_append, List.length_take, List.length_drop, buf.length_bytes]
  omega

/-- The code follows the rule on the first 127 bytes of its buffer, whoever wrote them. -/
theorem parse_buffer (file : List UInt8) (buf : stale_buffer) :
    (parse_shebang (some file) buf).at_return =
      script_rule ((read_buffer file buf).take (BINPRM_BUF_SIZE - 1)) := by
  have hlength := length_read_buffer file buf
  show (shebang_handling (read_buffer file buf)).at_return = _
  generalize read_buffer file buf = bytes at *
  -- the two bytes of the mark, the line, and the byte that the code overwrites with a 0
  obtain ⟨a, bytes, rfl⟩ := List.exists_cons_of_length_eq_add_one hlength
  obtain ⟨b, bytes, rfl⟩ := List.exists_cons_of_length_eq_add_one (Nat.succ.inj hlength)
  have hbytes : bytes.length = 125 + 1 := Nat.succ.inj (Nat.succ.inj hlength)
  rcases List.eq_nil_or_concat bytes with rfl | ⟨text, last, rfl⟩
  · simp at hbytes
  rw [List.concat_eq_append] at *
  have htext : text.length = 125 := by simpa using hbytes
  have hset : (a :: b :: (text ++ [last])).set (BINPRM_BUF_SIZE - 1) 0 = a :: b :: (text ++ [0]) := by
    show a :: b :: (text ++ [last]).set 125 0 = _
    rw [← htext]
    simp
  have htake : (a :: b :: (text ++ [last])).take (BINPRM_BUF_SIZE - 1) = a :: b :: text := by
    show a :: b :: (text ++ [last]).take 125 = _
    rw [← htext, List.take_left]
  unfold shebang_handling
  dsimp only
  rw [hset, htake]
  show (if a = _ ∧ b = _ then _ else _ : shebang_pointers).at_return = if _ then _ else _
  by_cases hmark : a = char '#' ∧ b = char '!'
  · rw [if_pos hmark, if_pos hmark]
    obtain ⟨rfl, rfl⟩ := hmark
    exact parse_line htext
  · rw [if_neg hmark, if_neg hmark]
    rfl

/-! ## Which files stop the loops -/

/-- A short file in the buffer. -/
theorem short_buffer {file : List UInt8} (hshort : file.length < BINPRM_BUF_SIZE - 1) (buf : stale_buffer) :
    (read_buffer file buf).take (BINPRM_BUF_SIZE - 1) =
      file ++ (buf.bytes.drop file.length).take (BINPRM_BUF_SIZE - 1 - file.length) := by
  unfold read_buffer
  rw [List.take_of_length_le (Nat.le_of_lt (Nat.lt_of_lt_of_le hshort (Nat.sub_le _ _))),
    List.take_append, List.take_of_length_le (Nat.le_of_lt hshort)]

theorem long_buffer {file : List UInt8} (hlong : BINPRM_BUF_SIZE - 1 ≤ file.length) (buf : stale_buffer) :
    (read_buffer file buf).take (BINPRM_BUF_SIZE - 1) = file.take (BINPRM_BUF_SIZE - 1) := by
  unfold read_buffer
  rw [List.take_append_of_le_length (by rw [List.length_take]; omega), List.take_take,
    Nat.min_eq_left (Nat.sub_le _ _)]

/-- What comes after a newline or a NUL does not matter. -/
theorem script_line_append {text : List UInt8} (hstop : char '\n' ∈ text ∨ 0 ∈ text)
    (others : List UInt8) : script_line (text ++ others) = script_line text := by
  rcases first_stop text with ⟨line, rest, rfl, hline⟩ | ⟨line, rest, rfl, hline⟩ | htext
  · rw [List.append_assoc, List.cons_append, script_line_newline hline, script_line_newline hline]
  · rw [List.append_assoc, List.cons_append, script_line_nul hline, script_line_nul hline]
  · rcases hstop with h | h
    · exact absurd rfl (htext _ h).1
    · exact absurd rfl (htext _ h).2

/-- The last character that is designated. -/
def shebang.last (s : shebang) : Option UInt8 :=
  match s.i_arg with
  | some arg => arg.getLast?
  | none => s.i_name.bind List.getLast?

theorem dropWhile_concat {p : UInt8 → Bool} {c : UInt8} (hc : p c = false) (line : List UInt8) :
    (line ++ [c]).dropWhile p = line.dropWhile p ++ [c] := by
  rw [List.dropWhile_append]
  cases hdrop : line.dropWhile p with
  | nil => simp [hc]
  | cons d others => rfl

/-- A line that ends with no blank is used to its end. -/
theorem script_words_last {line : List UInt8} {c : UInt8} (hc : is_blank c = false) :
    (script_words (line ++ [c])).last = some c := by
  unfold script_words
  rw [dropWhile_concat hc]
  generalize line.dropWhile is_blank = name
  have hne : name ++ [c] ≠ [] := List.append_ne_nil_of_right_ne_nil _ (List.cons_ne_nil _ _)
  have hafter : (name ++ [c]).dropWhile (!is_blank ·) =
      if (name.dropWhile (!is_blank ·)).isEmpty then [] else name.dropWhile (!is_blank ·) ++ [c] := by
    rw [List.dropWhile_append]
    simp [hc]
  dsimp only
  rw [if_neg hne, hafter]
  by_cases hempty : (name.dropWhile (!is_blank ·)).isEmpty = true
  · -- one word
    have hall : ∀ d ∈ name ++ [c], (!is_blank d) = true := by
      have h := List.dropWhile_eq_nil_iff.mp (List.isEmpty_iff.mp hempty)
      intro d hd
      rcases List.mem_append.mp hd with hd | hd
      · exact h d hd
      · rw [List.mem_singleton.mp hd, hc]
        rfl
    rw [if_pos hempty, List.takeWhile_eq_self_iff.mpr hall]
    simp [shebang.last]
  · rw [if_neg hempty, dropWhile_concat hc]
    simp [shebang.last]

theorem script_rule_marked (text : List UInt8) :
    script_rule (char '#' :: char '!' :: text) = script_words (script_line text) := by
  rw [script_rule, if_pos ⟨rfl, rfl⟩]

/-- A buffer full of one character. -/
def stale_of (c : UInt8) : stale_buffer := ⟨List.replicate BINPRM_BUF_SIZE c, List.length_replicate⟩

/-- An open line runs on into the bytes that were there before. -/
theorem open_line_last {text : List UInt8} (htext : ∀ c ∈ text, c ≠ char '\n' ∧ c ≠ 0)
    (hshort : text.length + 2 < BINPRM_BUF_SIZE - 1) {c : UInt8}
    (hc : is_blank c = false ∧ c ≠ char '\n' ∧ c ≠ 0) :
    (parse_shebang (some (char '#' :: char '!' :: text)) (stale_of c)).at_return.last = some c := by
  obtain ⟨n, hn⟩ : ∃ n, BINPRM_BUF_SIZE - 1 - (char '#' :: char '!' :: text).length = n + 1 := by
    refine ⟨BINPRM_BUF_SIZE - 1 - (text.length + 2) - 1, ?_⟩
    rw [List.length_cons, List.length_cons]
    omega
  have hjunk : ((stale_of c).bytes.drop (char '#' :: char '!' :: text).length).take
      (BINPRM_BUF_SIZE - 1 - (char '#' :: char '!' :: text).length) = List.replicate n c ++ [c] := by
    show ((List.replicate BINPRM_BUF_SIZE c).drop _).take _ = _
    rw [List.drop_replicate, List.take_replicate, ← List.replicate_succ', hn, Nat.min_eq_left]
    omega
  have hline : ∀ d ∈ text ++ (List.replicate n c ++ [c]), d ≠ char '\n' ∧ d ≠ 0 := by
    intro d hd
    rcases List.mem_append.mp hd with hd | hd
    · exact htext d hd
    · rw [← List.replicate_succ'] at hd
      rw [List.eq_of_mem_replicate hd]
      exact hc.2
  rw [parse_buffer, @short_buffer (char '#' :: char '!' :: text) hshort (stale_of c), hjunk]
  rw [List.cons_append, List.cons_append, script_rule_marked, script_line_free hline, ← List.append_assoc,
    List.rdropWhile_concat_neg _ _ _ (by simp [hc.1]), script_words_last hc.1]

/-- A buffer that held a script. -/
def stale_script : stale_buffer :=
  ⟨string "#!" ++ List.replicate 126 (char 'X'), by rw [List.length_append, List.length_replicate]; rfl⟩

theorem script_rule_unmarked {text : List UInt8} (hmark : text.take 2 ≠ string "#!") :
    script_rule text = ⟨0, none, none⟩ := by
  match text with
  | [] => rfl
  | [_] => rfl
  | a :: b :: text =>
    refine if_neg fun h => hmark ?_
    rw [h.1, h.2]
    rfl

theorem marked_cons {file : List UInt8} (hmark : file.take 2 = string "#!") :
    file = char '#' :: char '!' :: file.drop 2 := by
  conv_lhs => rw [← List.take_append_drop 2 file, hmark]
  rfl

/-- The strings in the buffer follow the rule, and so depend on the file only, exactly when the
    bytes of the file stop the loops. -/
theorem at_return_right (file : List UInt8) :
    (∀ buf, (parse_shebang (some file) buf).at_return =
        script_rule (file.take (BINPRM_BUF_SIZE - 1))) ↔ bounded file := by
  unfold bounded
  by_cases hmark : file.take 2 = string "#!"
  · rw [if_pos hmark]
    rw [marked_cons hmark]
    generalize file.drop 2 = text
    constructor
    · intro hrule
      by_contra hopen
      rw [not_or, not_or, Nat.not_le] at hopen
      obtain ⟨hshort, hnewline, hnul⟩ := hopen
      have htext : ∀ c ∈ text, c ≠ char '\n' ∧ c ≠ 0 := by
        intro c hc
        have hmem := List.mem_cons_of_mem (char '#') (List.mem_cons_of_mem (char '!') hc)
        exact ⟨fun h => hnewline (h ▸ hmem), fun h => hnul (h ▸ hmem)⟩
      -- two buffers, two results
      have hx := open_line_last htext hshort (show is_blank (char 'X') = false ∧ _ by decide)
      have hy := open_line_last htext hshort (show is_blank (char 'Y') = false ∧ _ by decide)
      rw [hrule] at hx hy
      exact absurd (hx.symm.trans hy) (by decide)
    · intro hbounded buf
      rw [parse_buffer]
      by_cases hlong : BINPRM_BUF_SIZE - 1 ≤ (char '#' :: char '!' :: text).length
      · rw [long_buffer hlong]
      have hstop : char '\n' ∈ text ∨ 0 ∈ text := by
        rcases hbounded with h | h | h
        · exact absurd h hlong
        · exact .inl (by simpa [char] using h)
        · exact .inr (by simpa [char] using h)
      rw [short_buffer (Nat.not_le.mp hlong), List.take_of_length_le (Nat.le_of_not_le hlong)]
      rw [List.cons_append, List.cons_append, script_rule_marked, script_rule_marked,
        script_line_append hstop]
  · rw [if_neg hmark]
    constructor
    · intro hrule
      constructor
      · rintro rfl
        exact absurd (hrule stale_script) (by decide +kernel)
      · rintro rfl
        exact absurd (hrule stale_script) (by decide +kernel)
    · intro hread buf
      have hfile : (file.take (BINPRM_BUF_SIZE - 1)).take 2 ≠ string "#!" := by
        rwa [List.take_take]
      have hbuffer : ((read_buffer file buf).take (BINPRM_BUF_SIZE - 1)).take 2 ≠ string "#!" := by
        match file with
        | [] => exact absurd rfl hread.1
        | [c] => exact fun h => hread.2 (congrArg (fun d => [d]) (List.cons.inj h).1)
        | _ :: _ :: _ => exact hmark
      rw [parse_buffer, script_rule_unmarked hbuffer, script_rule_unmarked hfile]

/-- A line without a name has no argument either. -/
theorem script_rule_arg {text : List UInt8} (h : (script_rule text).i_name = none) :
    (script_rule text).i_arg = none := by
  match text with
  | [] => rfl
  | [_] => rfl
  | a :: b :: text =>
    rw [script_rule] at h ⊢
    split_ifs at h ⊢
    · unfold script_words at h ⊢
      dsimp only at h ⊢
      split_ifs at h ⊢
      · rfl
    · rfl

/-- Pointers into a buffer that is gone: a string that is read later is what is there by then. -/
theorem strings_kept_iff (p : shebang_pointers) {s : shebang} (hs : s.i_name = none → s.i_arg = none) :
    (∀ bytes, p.strings bytes = s) ↔ p.at_return = s ∧ s.i_name = none := by
  constructor
  · intro hlater
    refine ⟨hlater p.buf, ?_⟩
    cases hname : p.i_name with
    | none => rw [← hlater []]; simp [shebang_pointers.strings, hname]
    | some cp =>
      -- nothing is there, or an `X`
      have hnothing := congrArg shebang.i_name (hlater [])
      have hsomething := congrArg shebang.i_name (hlater (List.replicate cp 0 ++ [char 'X', 0]))
      rw [← hnothing] at hsomething
      simp [shebang_pointers.strings, hname, c_string, char] at hsomething
  · rintro ⟨hreturn, hnone⟩ bytes
    have hname : p.i_name = none := by
      have h := congrArg shebang.i_name hreturn
      rw [hnone] at h
      exact Option.map_eq_none_iff.mp h
    have harg : p.i_arg = none := by
      have h := congrArg shebang.i_arg hreturn
      rw [hs hnone] at h
      exact Option.map_eq_none_iff.mp h
    rw [← hreturn]
    simp [shebang_pointers.at_return, shebang_pointers.strings, hname, harg]

/-- The strings that are in the buffer when the function returns follow the rule exactly when the
    bytes of the file stop the loops. For a caller that reads them afterwards they do, whatever has
    been written over the buffer, exactly when there is no string to read as well. -/
theorem parse_shebang_right (file : List UInt8) :
    ((∀ buf, (parse_shebang (some file) buf).at_return =
        script_rule (file.take (BINPRM_BUF_SIZE - 1))) ↔ bounded file) ∧
    ((∀ buf bytes, (parse_shebang (some file) buf).strings bytes =
        script_rule (file.take (BINPRM_BUF_SIZE - 1))) ↔
      bounded file ∧ (script_rule (file.take (BINPRM_BUF_SIZE - 1))).i_name = none) := by
  refine ⟨at_return_right file, ?_⟩
  have hkept : ∀ buf, (∀ bytes, (parse_shebang (some file) buf).strings bytes =
      script_rule (file.take (BINPRM_BUF_SIZE - 1))) ↔ _ :=
    fun buf => strings_kept_iff (parse_shebang (some file) buf) script_rule_arg
  rw [← at_return_right file]
  constructor
  · intro h
    exact ⟨fun buf => ((hkept buf).mp (h buf)).1, ((hkept stale_script).mp (h stale_script)).2⟩
  · rintro ⟨hreturn, hnone⟩ buf
    exact (hkept buf).mpr ⟨hreturn buf, hnone⟩

/-- A script of one line that is not ended. With a newline the name is right at the return, and is
    another one when the buffer has been written over. -/
theorem stale_interpreter :
    ((parse_shebang (some (string "#!/bin/sh")) (stale_of (char 'X'))).at_return =
        ⟨0, some (string "/bin/sh" ++ List.replicate 118 (char 'X')), none⟩ ∧
      (parse_shebang (some (string "#!/bin/sh")) (stale_of (char 'X'))).at_return ≠
        script_rule ((string "#!/bin/sh").take (BINPRM_BUF_SIZE - 1))) ∧
    (parse_shebang (some (string "#!/bin/sh\n")) (stale_of (char 'X'))).at_return =
        script_rule ((string "#!/bin/sh\n").take (BINPRM_BUF_SIZE - 1)) ∧
      (parse_shebang (some (string "#!/bin/sh\n")) (stale_of (char 'X'))).strings
          (List.replicate BINPRM_BUF_SIZE 0) = ⟨0, some [], none⟩ := by
  refine ⟨⟨?_, ?_⟩, ?_, ?_⟩ <;> decide +kernel

end Umeq.Syscall
