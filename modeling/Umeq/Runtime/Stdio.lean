import Mathlib.Data.Nat.Digits.Defs
import Mathlib.Tactic.Common
import Mathlib.Tactic.IntervalCases

/-! # `print` of `stdio.c`

    The runtime has a `printf` of its own, with the conversions `s`, `u`, `x` and `d`. What is emitted
    is a list of bytes, whether it goes to memory or to the standard error.

    `putInteger` writes the sign before the digits and the zeros of the width before both.

    * `printf_integer`: a conversion as the C standard has it.
    * `conversion_right`: the conversions that come out so.
-/

namespace Umeq.Runtime

/-! ## Characters -/

/-- The byte of a character. -/
def char (c : Char) : UInt8 := UInt8.ofNat c.toNat

def string (s : String) : List UInt8 := s.toList.map char

/-! ## Integers -/

structure padding where
  PADDING_ZERO : Bool
  PADDING_LEFT : Bool
  deriving DecidableEq, Repr

def digit_to_char (digit : Nat) (is_upper : Bool) : UInt8 :=
  if digit < 10 then char '0' + UInt8.ofNat digit
  else if is_upper then char 'A' + UInt8.ofNat digit - 10
  else char 'a' + UInt8.ofNat digit - 10

/-- The loop over the digits, in front of what is already in the buffer. `none` is a write in front
    of the buffer, in which so many places are left. -/
def write_digits (base : Nat) (is_upper : Bool) : Nat → Nat → List UInt8 → Option (List UInt8)
  | 0, _, _ => none
  | places + 1, u, cursor =>
    let cursor := digit_to_char (u % base) is_upper :: cursor
    if u / base = 0 then some cursor else write_digits base is_upper places (u / base) cursor

/-- `while(min_width > res)`. -/
def pad (min_width res : Nat) (c : UInt8) : List UInt8 := List.replicate (min_width - res) c

/-- What `putInteger` emits, and its result. -/
def putInteger (i : BitVec 64) (base min_width : Nat) (p : padding) (is_upper is_sign : Bool) :
    Option (List UInt8 × Nat) := do
  let padding_zero := p.PADDING_ZERO && !p.PADDING_LEFT
  let print_sign := is_sign && i.slt 0
  let u := if print_sign then -i else i
  let cursor ← write_digits base is_upper 127 u.toNat []
  let cursor := if print_sign then char '-' :: cursor else cursor
  let res := cursor.length
  if ¬ p.PADDING_LEFT then
    return (pad min_width res (if padding_zero then char '0' else char ' ') ++ cursor, max min_width res)
  else return (cursor ++ pad min_width res (char ' '), max min_width res)

/-! ## Formats -/

/-- What `va_arg` is taken from. -/
inductive arg where
  | int (v : BitVec 64)
  /-- A pointer to characters, or NULL. -/
  | str (s : Option (List UInt8))
  deriving DecidableEq, Repr

def is_flag_character (c : UInt8) : Bool :=
  c = char '#' || c = char '0' || c = char '-' || c = char ' ' || c = char '+'

def is_digit (c : UInt8) : Bool := char '0' ≤ c && c ≤ char '9'

/-- The flags, and the format after them. `none` is the assert. -/
def read_flags : padding → List UInt8 → Option (padding × List UInt8)
  | p, [] => some (p, [])
  | p, c :: format =>
    if is_flag_character c then
      if c = char '0' then read_flags { p with PADDING_ZERO := true } format
      else if c = char '-' then read_flags { p with PADDING_LEFT := true } format
      else none
    else some (p, c :: format)

/-- The width. `none` is one that is not an `int`. -/
def read_width : Nat → List UInt8 → Option (Nat × List UInt8)
  | min_width, [] => some (min_width, [])
  | min_width, c :: format =>
    if is_digit c then
      let min_width := min_width * 10 + (c - char '0').toNat
      if min_width < 2 ^ 31 then read_width min_width format else none
    else some (min_width, c :: format)

/-- The precision, of which one digit is skipped. -/
def skip_precision (format : List UInt8) : List UInt8 :=
  match format with
  | [] => []
  | c :: format =>
    if c = char '.' then
      match format with
      | [] => []
      | d :: format => if is_digit d then format else d :: format
    else c :: format

/-- `va_arg` of an `unsigned long` or of an `unsigned int`. -/
def unsigned_arg (is_long : Bool) (v : BitVec 64) : BitVec 64 :=
  if is_long then v else (v.setWidth 32).setWidth 64

/-- `va_arg` of a `long` or of an `int`. -/
def signed_arg (is_long : Bool) (v : BitVec 64) : BitVec 64 :=
  if is_long then v else (v.setWidth 32).signExtend 64

/-- The conversion specifier: what is emitted and what is counted for it, and what is left of the
    format and of the arguments. -/
def convert (is_long : Bool) (min_width : Nat) (p : padding) (format : List UInt8) (args : List arg) :
    Option ((List UInt8 × Nat) × List UInt8 × List arg) :=
  match format, args with
  | c :: format, .str s :: args =>
    if c = char 's' then
      let s := s.getD (string "(null)")
      some ((s, s.length), format, args)
    else none
  | c :: format, .int v :: args =>
    if c = char 'u' then
      (putInteger (unsigned_arg is_long v) 10 min_width p false false).map fun r => (r, format, args)
    else if c = char 'x' then
      (putInteger (unsigned_arg is_long v) 16 min_width p false false).map fun r => (r, format, args)
    else if c = char 'd' then
      (putInteger (signed_arg is_long v) 10 min_width p false true).map fun r => (r, format, args)
    else none
  | _, _ => none

/-- What follows a `%`. -/
def directive (format : List UInt8) (args : List arg) :
    Option ((List UInt8 × Nat) × List UInt8 × List arg) := do
  let (p, format) ← read_flags ⟨false, false⟩ format
  let (min_width, format) ← read_width 0 format
  let format := skip_precision format
  match format with
  | [] => none
  | c :: rest =>
    if c = char 'l' then convert true min_width p rest args else convert false min_width p format args

/-- `print`, for a format of at most as many characters as given. -/
def print_loop : Nat → List UInt8 → List arg → Option (List UInt8 × Nat)
  | _, [], _ => some ([], 0)
  | 0, _ :: _, _ => none
  | n + 1, c :: format, args =>
    if c = char '%' then
      match format with
      | [] => some ([], 0)
      | d :: rest =>
        if d = char '%' then do
          let (emitted, res) ← print_loop n rest args
          return (d :: emitted, res + 1)
        else do
          let ((chars, count), format, args) ← directive (d :: rest) args
          let (emitted, res) ← print_loop n format args
          return (chars ++ emitted, res + count)
    else do
      let (emitted, res) ← print_loop n format args
      return (c :: emitted, res + 1)

def print (format : List UInt8) (args : List arg) : Option (List UInt8 × Nat) :=
  print_loop format.length format args

/-! ## The C standard -/

inductive flag where
  | zero
  | minus
  deriving DecidableEq, Repr

inductive specifier where
  | d
  | u
  | x
  deriving DecidableEq, Repr

/-- A conversion of an integer. Its width is an `int`, and one of 0 is left out of the text. -/
structure conversion where
  flags : List flag
  width : Nat
  is_long : Bool
  specifier : specifier
  width_lt : width < 2 ^ 31

/-- The digits of a number, 0 among them. -/
def numeral (base n : Nat) : List UInt8 :=
  if n = 0 then [char '0'] else (Nat.digits base n).reverse.map fun digit => digit_to_char digit false

def flag.char : flag → UInt8
  | .zero => Runtime.char '0'
  | .minus => Runtime.char '-'

def specifier.char : specifier → UInt8
  | .d => Runtime.char 'd'
  | .u => Runtime.char 'u'
  | .x => Runtime.char 'x'

namespace conversion

/-- A conversion in a format. -/
def text (c : conversion) : List UInt8 :=
  Runtime.char '%' :: (c.flags.map flag.char ++ ((if c.width = 0 then [] else numeral 10 c.width) ++
    ((if c.is_long then [Runtime.char 'l'] else []) ++ [c.specifier.char])))

/-- The argument as a number of its type. -/
def value (c : conversion) (v : BitVec 64) : Int :=
  match c.specifier, c.is_long with
  | .d, true => v.toInt
  | .d, false => (v.setWidth 32).toInt
  | _, true => v.toNat
  | _, false => (v.setWidth 32).toNat

def base (c : conversion) : Nat := if c.specifier = .x then 16 else 10

/-- The sign and the digits. -/
def sign (c : conversion) (v : BitVec 64) : List UInt8 := if c.value v < 0 then [Runtime.char '-'] else []

def digits (c : conversion) (v : BitVec 64) : List UInt8 := numeral c.base (c.value v).natAbs

/-- How much is missing to the width. -/
def missing (c : conversion) (v : BitVec 64) : Nat := c.width - (c.sign v ++ c.digits v).length

/-- What the standard asks for: `-` puts the result to the left, and else `0` fills up the digits
    with zeros. -/
def printf_integer (c : conversion) (v : BitVec 64) : List UInt8 :=
  if .minus ∈ c.flags then c.sign v ++ c.digits v ++ List.replicate (c.missing v) (Runtime.char ' ')
  else if .zero ∈ c.flags then
    c.sign v ++ (List.replicate (c.missing v) (Runtime.char '0') ++ c.digits v)
  else List.replicate (c.missing v) (Runtime.char ' ') ++ (c.sign v ++ c.digits v)

/-- The value is not negative, or no zeros are put in front of it. -/
def sign_in_front (c : conversion) (v : BitVec 64) : Prop :=
  0 ≤ c.value v ∨ .zero ∉ c.flags ∨ .minus ∈ c.flags ∨ c.missing v = 0

instance (c : conversion) (v : BitVec 64) : Decidable (c.sign_in_front v) :=
  inferInstanceAs (Decidable (_ ∨ _))

end conversion

/-! ## Digits -/

section digits

variable {base n : Nat}

theorem numeral_one (hn : n < base) : numeral base n = [digit_to_char n false] := by
  unfold numeral
  split_ifs with hzero
  · rw [hzero]
    rfl
  · rw [Nat.digits_of_lt base n hzero hn]
    rfl

theorem numeral_step (hb : 1 < base) (hn : n / base ≠ 0) :
    numeral base n = numeral base (n / base) ++ [digit_to_char (n % base) false] := by
  have hpos : 0 < n := by
    refine Nat.pos_of_ne_zero ?_
    rintro rfl
    exact hn (Nat.zero_div base)
  unfold numeral
  rw [if_neg (Nat.ne_of_gt hpos), if_neg hn, Nat.digits_def' hb hpos, List.reverse_cons, List.map_append]
  rfl

/-- The loop writes the numeral, when there is room for it. -/
theorem write_digits_numeral (hb : 1 < base) {places u : Nat} (hroom : u < base ^ (places + 1))
    (cursor : List UInt8) :
    write_digits base false (places + 1) u cursor = some (numeral base u ++ cursor) := by
  induction places generalizing u cursor with
  | zero =>
    rw [zero_add, pow_one] at hroom
    unfold write_digits
    rw [if_pos (Nat.div_eq_of_lt hroom), Nat.mod_eq_of_lt hroom, numeral_one hroom]
    rfl
  | succ places ih =>
    unfold write_digits
    dsimp only
    split_ifs with hlast
    · have hlt : u < base := (Nat.div_eq_zero_iff_lt (by omega)).mp hlast
      rw [Nat.mod_eq_of_lt hlt, numeral_one hlt]
      rfl
    · have hrest : u / base < base ^ (places + 1) := by
        rw [Nat.div_lt_iff_lt_mul (by omega), ← Nat.pow_succ]
        exact hroom
      rw [ih hrest, numeral_step hb hlast, List.append_assoc]
      rfl

end digits

/-! ## Reading a conversion -/

section reading

theorem digit_read {n : Nat} (hn : n < 10) :
    is_digit (digit_to_char n false) = true ∧ (digit_to_char n false - char '0').toNat = n ∧
      digit_to_char n false ≠ char '%' := by
  interval_cases n <;> decide

theorem leading_digit {n : Nat} (hpos : 0 < n) (hn : n < 10) :
    is_flag_character (digit_to_char n false) = false := by
  interval_cases n <;> decide

/-- A width is read back. -/
theorem read_width_numeral {w : Nat} (hw : w < 2 ^ 31) (rest : List UInt8) :
    read_width 0 (numeral 10 w ++ rest) = read_width w rest := by
  induction w using Nat.strong_induction_on generalizing rest with
  | _ w ih =>
    by_cases hlt : w < 10
    · obtain ⟨hdigit, hvalue, -⟩ := digit_read hlt
      rw [numeral_one hlt]
      show read_width 0 (digit_to_char w false :: rest) = _
      unfold read_width
      simp only [hdigit, if_true, hvalue, Nat.zero_mul, Nat.zero_add, if_pos hw]
      cases rest <;> rfl
    · have hlast : w / 10 ≠ 0 := by omega
      obtain ⟨hdigit, hvalue, -⟩ := digit_read (show w % 10 < 10 by omega)
      rw [numeral_step (by decide) hlast, List.append_assoc, ih (w / 10) (by omega) (by omega)]
      show read_width (w / 10) (digit_to_char (w % 10) false :: rest) = _
      rw [read_width]
      have hsum : w / 10 * 10 + w % 10 = w := by omega
      simp only [hdigit, if_true, hvalue, hsum, if_pos hw]

/-- It does not begin like a flag. -/
theorem numeral_head {w : Nat} (hw : 0 < w) :
    ∃ c cs, numeral 10 w = c :: cs ∧ is_flag_character c = false := by
  induction w using Nat.strong_induction_on with
  | _ w ih =>
    by_cases hlt : w < 10
    · exact ⟨_, _, numeral_one hlt, leading_digit hw hlt⟩
    · have hlast : w / 10 ≠ 0 := by omega
      obtain ⟨c, cs, hcs, hflag⟩ := ih (w / 10) (by omega) (by omega)
      exact ⟨c, _, by rw [numeral_step (by decide) hlast, hcs, List.cons_append], hflag⟩

theorem numeral_percent (w : Nat) : char '%' ∉ numeral 10 w := by
  intro hmem
  unfold numeral at hmem
  split_ifs at hmem
  · revert hmem
    decide
  · obtain ⟨digit, hdigit, heq⟩ := List.mem_map.mp hmem
    have hlt := Nat.digits_lt_base (by decide) (List.mem_reverse.mp hdigit)
    exact (digit_read hlt).2.2 heq

/-- The padding that flags stand for. -/
def flags_padding (p : padding) (flags : List flag) : padding where
  PADDING_ZERO := p.PADDING_ZERO || decide (.zero ∈ flags)
  PADDING_LEFT := p.PADDING_LEFT || decide (.minus ∈ flags)

theorem read_flags_map (flags : List flag) (p : padding) {c : UInt8} {rest : List UInt8}
    (hc : is_flag_character c = false) :
    read_flags p (flags.map flag.char ++ c :: rest) = some (flags_padding p flags, c :: rest) := by
  induction flags generalizing p with
  | nil =>
    show read_flags p (c :: rest) = _
    unfold read_flags
    simp [hc, flags_padding]
  | cons flag flags ih =>
    cases flag with
    | zero =>
      show read_flags p (char '0' :: (flags.map flag.char ++ c :: rest)) = _
      rw [read_flags, if_pos (by decide), if_pos rfl, ih]
      simp [flags_padding]
    | minus =>
      show read_flags p (char '-' :: (flags.map flag.char ++ c :: rest)) = _
      rw [read_flags, if_pos (by decide), if_neg (by decide), if_pos rfl, ih]
      simp [flags_padding]

end reading

/-! ## Emitting a conversion -/

section emitting

/-- What `putInteger` takes its argument for. -/
def magnitude (is_sign : Bool) (i : BitVec 64) : Int := if is_sign then i.toInt else i.toNat

/-- The absolute value, also of the least number. -/
theorem magnitude_abs (is_sign : Bool) (i : BitVec 64) :
    (is_sign && i.slt 0) = decide (magnitude is_sign i < 0) ∧
      (if is_sign && i.slt 0 then -i else i).toNat = (magnitude is_sign i).natAbs := by
  have hslt : i.slt 0 = decide (i.toInt < 0) := by
    rw [BitVec.slt_eq_decide]
    rfl
  have hlt := i.isLt
  cases is_sign with
  | false => simp [magnitude]
  | true =>
    simp only [Bool.true_and, hslt, magnitude, if_true, true_and]
    by_cases hneg : i.toInt < 0
    · rw [decide_eq_true hneg, if_pos rfl, BitVec.toNat_neg]
      rw [BitVec.toInt_eq_toNat_cond] at hneg ⊢
      split_ifs at hneg ⊢ <;> omega
    · rw [decide_eq_false hneg, if_neg (by simp)]
      rw [BitVec.toInt_eq_toNat_cond] at hneg ⊢
      split_ifs at hneg ⊢ <;> omega

/-- The characters of a number: its sign and its digits. -/
def signed_numeral (base : Nat) (z : Int) : List UInt8 :=
  (if z < 0 then [char '-'] else []) ++ numeral base z.natAbs

/-- What `putInteger` emits. -/
theorem putInteger_emits {base : Nat} (hb : 1 < base) (hroom : 2 ^ 64 ≤ base ^ 127) (i : BitVec 64)
    (min_width : Nat) (p : padding) (is_sign : Bool) :
    putInteger i base min_width p false is_sign =
      some (if p.PADDING_LEFT then signed_numeral base (magnitude is_sign i) ++
          pad min_width (signed_numeral base (magnitude is_sign i)).length (char ' ')
        else pad min_width (signed_numeral base (magnitude is_sign i)).length
          (if p.PADDING_ZERO then char '0' else char ' ') ++ signed_numeral base (magnitude is_sign i),
        max min_width (signed_numeral base (magnitude is_sign i)).length) := by
  obtain ⟨hneg, habs⟩ := magnitude_abs is_sign i
  have hlt : (magnitude is_sign i).natAbs < base ^ (126 + 1) := by
    rw [← habs]
    exact Nat.lt_of_lt_of_le (BitVec.isLt _) hroom
  have hcursor : (if (is_sign && i.slt 0) = true then
      char '-' :: numeral base (magnitude is_sign i).natAbs
      else numeral base (magnitude is_sign i).natAbs) = signed_numeral base (magnitude is_sign i) := by
    rw [hneg]
    unfold signed_numeral
    by_cases hz : magnitude is_sign i < 0
    · rw [decide_eq_true hz, if_pos rfl, if_pos hz]
      rfl
    · rw [decide_eq_false hz, if_neg (by simp), if_neg hz]
      rfl
  unfold putInteger
  simp only [habs, write_digits_numeral hb hlt, List.append_nil, Option.bind_eq_bind, Option.bind_some,
    hcursor]
  cases p with
  | mk zero left => cases left <;> cases zero <;> rfl

/-- A character that is no `%`. -/
theorem print_loop_char {n : Nat} {c : UInt8} {format : List UInt8} {args : List arg}
    (hc : c ≠ char '%') : print_loop (n + 1) (c :: format) args =
      (print_loop n format args).map fun q => (c :: q.1, q.2 + 1) := by
  simp only [print_loop]
  rw [if_neg hc]
  cases print_loop n format args <;> rfl

/-- A conversion, and then the rest of the format. -/
theorem print_loop_directive {n : Nat} {d : UInt8} {rest format : List UInt8} {args args' : List arg}
    {r : List UInt8 × Nat} (hd : d ≠ char '%') (h : directive (d :: rest) args = some (r, format, args')) :
    print_loop (n + 1) (char '%' :: d :: rest) args =
      (print_loop n format args').map fun q => (r.1 ++ q.1, q.2 + r.2) := by
  simp only [print_loop]
  rw [if_pos trivial, if_neg hd, h]
  cases hrest : print_loop n format args' with
  | none => simp [hrest]
  | some q => simp [hrest]

end emitting

namespace conversion

variable (c : conversion) (v : BitVec 64)

/-- What `va_arg` makes of the argument. -/
def argument : BitVec 64 := if c.specifier = .d then signed_arg c.is_long v else unsigned_arg c.is_long v

theorem magnitude_argument : magnitude (c.specifier = .d) (c.argument v) = c.value v := by
  have hunsigned : ((v.setWidth 32).setWidth 64).toNat = (v.setWidth 32).toNat := by
    rw [BitVec.toNat_setWidth]
    exact Nat.mod_eq_of_lt (Nat.lt_trans (v.setWidth 32).isLt (by decide))
  have hsigned : ((v.setWidth 32).signExtend 64).toInt = (v.setWidth 32).toInt :=
    BitVec.toInt_signExtend_of_le (by decide)
  unfold magnitude argument value signed_arg unsigned_arg
  cases c.specifier <;> cases c.is_long <;> simp [hunsigned, hsigned]

/-- The two parts of the standard's result. -/
theorem signed_numeral_value : signed_numeral c.base (c.value v) = c.sign v ++ c.digits v := rfl

theorem convert_specifier (w : Nat) (p : padding) :
    convert c.is_long w p [c.specifier.char] [.int v] =
      (putInteger (c.argument v) c.base w p false (c.specifier = .d)).map fun r => (r, [], []) := by
  unfold argument base
  cases c.specifier <;> rfl

/-- The characters after the width. -/
def tail : List UInt8 := (if c.is_long then [Runtime.char 'l'] else []) ++ [c.specifier.char]

theorem tail_cons : ∃ d ds, c.tail = d :: ds ∧ is_flag_character d = false ∧ is_digit d = false ∧
    d ≠ Runtime.char '.' := by
  unfold tail
  cases c.is_long <;> cases c.specifier <;> exact ⟨_, _, rfl, by decide⟩

/-- What follows the `%` is read as it was written. -/
theorem directive_text :
    directive (c.flags.map flag.char ++ ((if c.width = 0 then [] else numeral 10 c.width) ++ c.tail))
      [.int v] =
      (putInteger (c.argument v) c.base c.width (flags_padding ⟨false, false⟩ c.flags) false
        (c.specifier = .d)).map fun r => (r, [], []) := by
  obtain ⟨d, ds, htail, hflag, hdigit, hdot⟩ := c.tail_cons
  have hflags : read_flags ⟨false, false⟩
      (c.flags.map flag.char ++ ((if c.width = 0 then [] else numeral 10 c.width) ++ c.tail)) =
      some (flags_padding ⟨false, false⟩ c.flags,
        (if c.width = 0 then [] else numeral 10 c.width) ++ c.tail) := by
    by_cases hzero : c.width = 0
    · rw [if_pos hzero, List.nil_append, htail]
      exact read_flags_map _ _ hflag
    · obtain ⟨e, es, hes, hnot⟩ := numeral_head (Nat.pos_of_ne_zero hzero)
      rw [if_neg hzero, hes, List.cons_append]
      exact read_flags_map _ _ hnot
  have hwidth : read_width 0 ((if c.width = 0 then [] else numeral 10 c.width) ++ c.tail) =
      some (c.width, c.tail) := by
    have hstop : ∀ w, read_width w c.tail = some (w, c.tail) := by
      intro w
      rw [htail, read_width, if_neg (by rw [hdigit]; simp)]
    by_cases hzero : c.width = 0
    · rw [if_pos hzero, List.nil_append, hstop, hzero]
    · rw [if_neg hzero, read_width_numeral c.width_lt, hstop]
  have hprecision : skip_precision c.tail = c.tail := by
    rw [htail]
    exact if_neg hdot
  unfold directive
  simp only [hflags, hwidth, hprecision, Option.bind_eq_bind, Option.bind_some]
  rw [← c.convert_specifier]
  unfold tail
  cases hlong : c.is_long with
  | true => simp
  | false =>
    have hl : c.specifier.char ≠ Runtime.char 'l' := by
      cases c.specifier <;> decide
    simp [hl]

/-- A conversion is not taken for a `%`. -/
theorem text_percent : Runtime.char '%' ∉
    c.flags.map flag.char ++ ((if c.width = 0 then [] else numeral 10 c.width) ++ c.tail) := by
  intro hmem
  rcases List.mem_append.mp hmem with hmem | hmem
  · obtain ⟨f, -, hf⟩ := List.mem_map.mp hmem
    revert hf
    cases f <;> decide
  rcases List.mem_append.mp hmem with hmem | hmem
  · split_ifs at hmem
    · cases hmem
    · exact numeral_percent _ hmem
  · revert hmem
    unfold tail
    cases c.is_long <;> cases c.specifier <;> decide

/-- The whole format. -/
theorem print_text : print c.text [.int v] =
    putInteger (c.argument v) c.base c.width (flags_padding ⟨false, false⟩ c.flags) false
      (c.specifier = .d) := by
  have hdirective := c.directive_text v
  have hpercent := c.text_percent
  have htext : c.text = Runtime.char '%' ::
    (c.flags.map flag.char ++ ((if c.width = 0 then [] else numeral 10 c.width) ++ c.tail)) := rfl
  unfold print
  rw [htext, List.length_cons]
  cases hrest : c.flags.map flag.char ++ ((if c.width = 0 then [] else numeral 10 c.width) ++ c.tail) with
  | nil =>
    obtain ⟨d, ds, htail, -⟩ := c.tail_cons
    rw [htail] at hrest
    simp at hrest
  | cons d rest =>
    rw [hrest] at hdirective hpercent
    have hd : d ≠ Runtime.char '%' := fun h => hpercent (h ▸ List.mem_cons_self)
    cases hput : putInteger (c.argument v) c.base c.width (flags_padding ⟨false, false⟩ c.flags) false
        (c.specifier = .d) with
    | none =>
      rw [hput] at hdirective
      rw [print_loop, if_pos rfl]
      dsimp only
      rw [if_neg hd, hdirective]
      rfl
    | some r =>
      rw [hput] at hdirective
      rw [print_loop_directive hd hdirective, List.length_cons, print_loop]
      simp

/-- Zeros in front of a sign are seen. -/
theorem zeros_in_front (digits : List UInt8) (n : Nat) (z : Int) :
    List.replicate n (Runtime.char '0') ++ ((if z < 0 then [Runtime.char '-'] else []) ++ digits) =
      (if z < 0 then [Runtime.char '-'] else []) ++ (List.replicate n (Runtime.char '0') ++ digits) ↔
        0 ≤ z ∨ n = 0 := by
  by_cases hz : z < 0
  · rw [if_pos hz]
    cases n with
    | zero => simp
    | succ n =>
      constructor
      · intro h
        have hhead := (List.cons.inj h).1
        exact absurd hhead (by decide)
      · rintro (h | h)
        · omega
        · omega
  · rw [if_neg hz]
    simp [Int.not_lt.mp hz]

/-- The runtime prints a conversion as the standard does exactly when it puts no zeros in front of a
    sign. -/
theorem conversion_right :
    print c.text [.int v] = some (c.printf_integer v, (c.printf_integer v).length) ↔
      c.sign_in_front v := by
  have hbase : 1 < c.base ∧ 2 ^ 64 ≤ c.base ^ 127 := by
    unfold base
    split_ifs <;> decide
  have hsum : c.width - (c.sign v ++ c.digits v).length + (c.sign v ++ c.digits v).length =
      max c.width (c.sign v ++ c.digits v).length := by
    omega
  rw [print_text, putInteger_emits hbase.1 hbase.2, c.magnitude_argument, signed_numeral_value]
  unfold printf_integer sign_in_front missing pad flags_padding
  simp only [Bool.false_or, decide_eq_true_eq, Option.some.injEq, Prod.mk.injEq]
  by_cases hminus : flag.minus ∈ c.flags
  · simp only [hminus, if_true, true_or, or_true, true_and, List.length_append, List.length_replicate,
      iff_true] at hsum ⊢
    omega
  by_cases hzero : flag.zero ∈ c.flags
  · simp only [hminus, hzero, if_true, if_false, not_true_eq_false, false_or, List.length_append,
      List.length_replicate] at hsum ⊢
    rw [and_iff_left (by omega)]
    exact zeros_in_front _ _ _
  · simp only [hminus, hzero, if_false, not_false_eq_true, true_or, or_true, List.length_append,
      List.length_replicate, iff_true, true_and] at hsum ⊢
    omega

end conversion

/-- `%05d` of -42. -/
def five_zeros : conversion := ⟨[.zero], 5, false, .d, by decide⟩

theorem five_zeros_wrong :
    print five_zeros.text [.int (-42)] = some (string "00-42", 5) ∧
      print five_zeros.text [.int (-42)] ≠ some (five_zeros.printf_integer (-42), 5) := by
  constructor <;> decide +kernel

end Umeq.Runtime
