import Mathlib.Data.BitVec
import Umeq.Lib.Limbs

/-! # The 128-bit integers of `arm_helpers.c`

    The file has its own 128-bit integers, in two words of 64 bits, for the hosts whose
    compiler has none, and the same functions over the compiler's integers for the others.
    The code that uses them is written over the names of the functions: `int128_ops` is
    the list of them.

    The two agree (`same_as_native`) but for the right shifts by 0: an `else` is missing,
    and the low word is made with the high word shifted left by 64. C leaves that shift
    undefined; `undef` is what the host makes of it. A 32-bit x86 leaves the word as it is.
-/

namespace Umeq.Arm

/-- What the code uses of the 128-bit integers. -/
structure int128_ops where
  int128_t : Type
  uint128_t : Type
  INT128_INT64_MAX : int128_t
  INT128_INT64_MIN : int128_t
  INT128_UINT64_MAX : int128_t
  INT128_ZERO : int128_t
  INT128_ONE : int128_t
  UINT128_UINT64_MAX : uint128_t
  UINT128_ZERO : uint128_t
  UINT128_ONE : uint128_t
  int128_gt : int128_t → int128_t → Bool
  int128_to_int64_t : int128_t → BitVec 64
  int128_to_uint64_t : int128_t → BitVec 64
  int64_to_int128_t : BitVec 64 → int128_t
  int128_shl : int128_t → Int → Option int128_t
  int128_shr : int128_t → Int → Option int128_t
  int128_add : int128_t → int128_t → int128_t
  int128_sub : int128_t → int128_t → int128_t
  int128_mul : int128_t → int128_t → int128_t
  uint128_gt : uint128_t → uint128_t → Bool
  uint128_to_uint64_t : uint128_t → BitVec 64
  uint64_to_uint128_t : BitVec 64 → uint128_t
  uint128_shl : uint128_t → Int → Option uint128_t
  uint128_shr : uint128_t → Int → Option uint128_t
  uint128_add : uint128_t → uint128_t → uint128_t
  uint128_sub : uint128_t → uint128_t → uint128_t
  uint128_to_int128 : uint128_t → int128_t

/-- `assert_illegal_opcode`, on the amount of a shift. -/
def assert_shift {α : Type} (shift : Int) (res : Nat → α) : Option α :=
  if 0 ≤ shift ∧ shift < 128 then some (res shift.toNat) else none

/-! ## Two words -/

/-- `___int128_t` and `___uint128_t`: the conversions between them copy the fields. -/
structure words where
  msb : BitVec 64
  lsb : BitVec 64
  deriving DecidableEq

abbrev int128_t := words

abbrev uint128_t := words

def int128_sign (op : int128_t) : Int :=
  if op.lsb = 0 ∧ op.msb = 0 then 0 else if op.msb >>> 63 ≠ 0 then -1 else 1

def uint128_gt (op1 op2 : uint128_t) : Bool :=
  if op2.msb < op1.msb then true
  else if op1.msb < op2.msb then false
  else if op2.lsb < op1.lsb then true else false

def int128_gt (op1 op2 : int128_t) : Bool :=
  let s1 := int128_sign op1
  let s2 := int128_sign op2
  if s1 = 0 ∧ s2 = 0 then false
  else if s1 ≠ s2 then if s2 < s1 then true else false
  else uint128_gt op1 op2

def int64_to_int128_t (op : BitVec 64) : int128_t := ⟨if op.toInt < 0 then ~~~ 0 else 0, op⟩

def uint64_to_uint128_t (op : BitVec 64) : uint128_t := ⟨0, op⟩

/-- The shifts to the left, the same for both types. -/
def words.shl (op : words) (shift : Nat) : words where
  lsb := if shift < 64 then op.lsb <<< shift else 0
  msb :=
    if shift = 0 then op.msb
    else if 64 ≤ shift then op.lsb <<< (shift - 64)
    else (op.msb <<< shift) ||| (op.lsb >>> (64 - shift))

/-- A left shift of a word by up to 64. -/
def shift_left (undef : BitVec 64 → BitVec 64) (x : BitVec 64) (n : Nat) : BitVec 64 :=
  if n < 64 then x <<< n else undef x

/-- The shifts to the right: `shr` is that of the high word, and `sign` what comes after it.
    The low word of a shift by 0 is assigned twice, and the second value stays. -/
def words.shr (undef : BitVec 64 → BitVec 64) (shr : BitVec 64 → Nat → BitVec 64) (sign : BitVec 64)
    (op : words) (shift : Nat) : words where
  lsb :=
    if shift < 64 then (op.lsb >>> shift) ||| shift_left undef op.msb (64 - shift)
    else shr op.msb (shift - 64)
  msb := if shift < 64 then shr op.msb shift else sign

def int128_shl (op : int128_t) (shift : Int) : Option int128_t := assert_shift shift op.shl

def uint128_shl (op : uint128_t) (shift : Int) : Option uint128_t := assert_shift shift op.shl

def int128_shr (undef : BitVec 64 → BitVec 64) (op : int128_t) (shift : Int) : Option int128_t :=
  assert_shift shift (op.shr undef BitVec.sshiftRight (op.msb.sshiftRight 63))

def uint128_shr (undef : BitVec 64 → BitVec 64) (op : uint128_t) (shift : Int) : Option uint128_t :=
  assert_shift shift (op.shr undef BitVec.ushiftRight 0)

/-- `int128_add` and `uint128_add`. -/
def words.add (op1 op2 : words) : words :=
  let lsb := op1.lsb + op2.lsb
  let c : BitVec 64 := if lsb < op1.lsb then 1 else 0
  ⟨op1.msb + op2.msb + c, lsb⟩

/-- `int128_sub` and `uint128_sub`. -/
def words.sub (op1 op2 : words) : words :=
  let b : BitVec 64 := if op1.lsb < op2.lsb then 1 else 0
  ⟨op1.msb - op2.msb - b, op1.lsb - op2.lsb⟩

/-- The array of 32-bit words `u` or `v` of `uint128_mul`. -/
def words.limbs (op : words) (i : Nat) : BitVec 32 :=
  [op.lsb.setWidth 32, (op.lsb >>> 32).setWidth 32, op.msb.setWidth 32,
    (op.msb >>> 32).setWidth 32].getD i 0

/-- The array `w` and the variable `k` of `uint128_mul`. -/
structure mul_state where
  w : Nat → BitVec 32
  k : BitVec 64

section uint128_mul

variable (u v : Nat → BitVec 32)

/-- The body of the inner loop of `uint128_mul`. -/
def mul_inner (j : Nat) (s : mul_state) (i : Nat) : mul_state :=
  let t := (u i).setWidth 64 * (v j).setWidth 64 + (s.w (i + j)).setWidth 64 + s.k
  ⟨Function.update s.w (i + j) (t.setWidth 32), t >>> 32⟩

/-- The body of the outer loop. -/
def mul_outer (w : Nat → BitVec 32) (j : Nat) : Nat → BitVec 32 :=
  ((List.range (4 - j)).foldl (mul_inner u v j) ⟨w, 0⟩).w

end uint128_mul

def uint128_mul (op1 op2 : uint128_t) : uint128_t :=
  let w := (List.range 4).foldl (mul_outer op1.limbs op2.limbs) (fun _ => 0)
  ⟨((w 3).setWidth 64 <<< 32) + (w 2).setWidth 64, ((w 1).setWidth 64 <<< 32) + (w 0).setWidth 64⟩

/-- The functions over two words. -/
def software (undef : BitVec 64 → BitVec 64) : int128_ops where
  int128_t := int128_t
  uint128_t := uint128_t
  INT128_INT64_MAX := ⟨0, 0x7fffffffffffffff⟩
  INT128_INT64_MIN := ⟨~~~ 0, 0x8000000000000000⟩
  INT128_UINT64_MAX := ⟨0, 0xffffffffffffffff⟩
  INT128_ZERO := ⟨0, 0⟩
  INT128_ONE := ⟨0, 1⟩
  UINT128_UINT64_MAX := ⟨0, 0xffffffffffffffff⟩
  UINT128_ZERO := ⟨0, 0⟩
  UINT128_ONE := ⟨0, 1⟩
  int128_gt := int128_gt
  int128_to_int64_t op := op.lsb
  int128_to_uint64_t op := op.lsb
  int64_to_int128_t := int64_to_int128_t
  int128_shl := int128_shl
  int128_shr := int128_shr undef
  int128_add := words.add
  int128_sub := words.sub
  int128_mul := uint128_mul
  uint128_gt := uint128_gt
  uint128_to_uint64_t op := op.lsb
  uint64_to_uint128_t := uint64_to_uint128_t
  uint128_shl := uint128_shl
  uint128_shr := uint128_shr undef
  uint128_add := words.add
  uint128_sub := words.sub
  uint128_to_int128 op := op

/-- The functions over the integers of the compiler. -/
def native : int128_ops where
  int128_t := BitVec 128
  uint128_t := BitVec 128
  INT128_INT64_MAX := 0x7fffffffffffffff
  INT128_INT64_MIN := -0x7fffffffffffffff - 1
  INT128_UINT64_MAX := 0xffffffffffffffff
  INT128_ZERO := 0
  INT128_ONE := 1
  UINT128_UINT64_MAX := 0xffffffffffffffff
  UINT128_ZERO := 0
  UINT128_ONE := 1
  int128_gt op1 op2 := op2.slt op1
  int128_to_int64_t op := op.setWidth 64
  int128_to_uint64_t op := op.setWidth 64
  int64_to_int128_t op := op.signExtend 128
  int128_shl op shift := assert_shift shift fun n => op <<< n
  int128_shr op shift := assert_shift shift fun n => op.sshiftRight n
  int128_add op1 op2 := op1 + op2
  int128_sub op1 op2 := op1 - op2
  int128_mul op1 op2 := op1 * op2
  uint128_gt op1 op2 := op2.ult op1
  uint128_to_uint64_t op := op.setWidth 64
  uint64_to_uint128_t op := op.setWidth 128
  uint128_shl op shift := assert_shift shift fun n => op <<< n
  uint128_shr op shift := assert_shift shift fun n => op >>> n
  uint128_add op1 op2 := op1 + op2
  uint128_sub op1 op2 := op1 - op2
  uint128_to_int128 op := op


/-! ## Values -/

/-- The integer in two words. -/
def words.value (op : words) : BitVec 128 := op.msb ++ op.lsb

theorem value_toNat (op : words) : op.value.toNat = op.msb.toNat * 2 ^ 64 + op.lsb.toNat := by
  rw [words.value, BitVec.toNat_append, ← Nat.shiftLeft_add_eq_or_of_lt op.lsb.isLt,
    Nat.shiftLeft_eq]

theorem getLsbD_value (op : words) (i : Nat) :
    op.value.getLsbD i = if i < 64 then op.lsb.getLsbD i else op.msb.getLsbD (i - 64) :=
  BitVec.getLsbD_append

theorem value_setWidth (op : words) : op.value.setWidth 64 = op.lsb := by
  apply BitVec.eq_of_getLsbD_eq
  intro i hi
  simp [getLsbD_value, hi]

theorem value_msb (op : words) : op.value.msb = op.msb.msb := by
  show (op.msb ++ op.lsb : BitVec (64 + 64)).msb = _
  rw [BitVec.msb_append, if_neg (by decide)]

/-- Two integers are equal when their words are. -/
theorem value_inj {a b : words} : a.value = b.value ↔ a.msb = b.msb ∧ a.lsb = b.lsb := by
  constructor
  · intro h
    have hnat := congrArg BitVec.toNat h
    rw [value_toNat, value_toNat] at hnat
    have ha := a.lsb.isLt
    have hb := b.lsb.isLt
    exact ⟨BitVec.eq_of_toNat_eq (by omega), BitVec.eq_of_toNat_eq (by omega)⟩
  · rintro ⟨hmsb, hlsb⟩
    rw [words.value, words.value, hmsb, hlsb]

theorem value_add (a b : words) : (a.add b).value = a.value + b.value := by
  have ha := a.lsb.isLt
  have hb := b.lsb.isLt
  apply BitVec.eq_of_toNat_eq
  have hcarry : (a.lsb + b.lsb).toNat = a.lsb.toNat + b.lsb.toNat ∧ ¬ a.lsb + b.lsb < a.lsb ∨
      (a.lsb + b.lsb).toNat + 2 ^ 64 = a.lsb.toNat + b.lsb.toNat ∧ a.lsb + b.lsb < a.lsb := by
    rw [BitVec.lt_def, BitVec.toNat_add]
    omega
  rw [BitVec.toNat_add, value_toNat, value_toNat, value_toNat]
  obtain ⟨hlow, hc⟩ | ⟨hlow, hc⟩ := hcarry
  · simp only [words.add, if_neg hc, hlow, BitVec.toNat_add]
    simp
    omega
  · simp only [words.add, if_pos hc, BitVec.toNat_add]
    simp
    omega

theorem value_sub (a b : words) : (a.sub b).value = a.value - b.value := by
  have ha := a.lsb.isLt
  have hb := b.lsb.isLt
  apply BitVec.eq_of_toNat_eq
  rw [BitVec.toNat_sub, value_toNat, value_toNat, value_toNat]
  by_cases hc : a.lsb < b.lsb
  · have hlow : (a.lsb - b.lsb).toNat = 2 ^ 64 - b.lsb.toNat + a.lsb.toNat := by
      rw [BitVec.lt_def] at hc
      rw [BitVec.toNat_sub]
      omega
    simp only [words.sub, if_pos hc, hlow, BitVec.toNat_sub]
    simp
    omega
  · have hlow : (a.lsb - b.lsb).toNat = a.lsb.toNat - b.lsb.toNat := by
      rw [BitVec.lt_def] at hc
      rw [BitVec.toNat_sub]
      omega
    rw [BitVec.lt_def] at hc
    simp only [words.sub, BitVec.lt_def, if_neg hc, hlow, BitVec.toNat_sub]
    simp
    omega

/-! ## Shifts -/

theorem value_shl (op : words) {n : Nat} (hn : n < 128) : (op.shl n).value = op.value <<< n := by
  apply BitVec.eq_of_getLsbD_eq
  intro i hi
  rw [getLsbD_value, BitVec.getLsbD_shiftLeft, getLsbD_value]
  simp only [words.shl, hi, decide_true, Bool.true_and]
  by_cases hlow : i < 64
  · -- the low word is shifted alone
    rw [if_pos hlow, if_pos (show i - n < 64 by omega)]
    by_cases h64 : n < 64
    · rw [if_pos h64, BitVec.getLsbD_shiftLeft, decide_eq_true hlow, Bool.true_and]
    · rw [if_neg h64, decide_eq_true (show i < n by omega)]
      simp
  rw [if_neg hlow]
  obtain rfl | h64 | h64 : n = 0 ∨ (n ≠ 0 ∧ n < 64) ∨ 64 ≤ n := by omega
  · simp [hlow]
  · -- the high word takes bits of both
    have hcross : 64 - n + (i - 64) = i - n := by omega
    have hhigh : i - 64 - n = i - n - 64 := by omega
    rw [if_neg h64.1, if_neg (by omega), BitVec.getLsbD_or, BitVec.getLsbD_shiftLeft,
      BitVec.getLsbD_ushiftRight, hcross, hhigh, decide_eq_true (show i - 64 < 64 by omega),
      decide_eq_false (show ¬ i < n by omega)]
    by_cases hplace : i - n < 64
    · rw [if_pos hplace, decide_eq_true (show i - 64 < n by omega)]
      simp
    · rw [if_neg hplace, decide_eq_false (show ¬ i - 64 < n by omega),
        BitVec.getLsbD_of_ge op.lsb (i - n) (by omega)]
      simp
  · have hplace : i - 64 - (n - 64) = i - n := by omega
    have hbelow : i - 64 < n - 64 ↔ i < n := by omega
    rw [if_neg (by omega), if_pos h64, BitVec.getLsbD_shiftLeft, hplace, if_pos (by omega),
      decide_eq_true (show i - 64 < 64 by omega), Bool.true_and]
    simp only [hbelow]

/-- What the bits of a word or of two words are, `n` places up, with `fill` past the last. -/
def FilledRight {w : Nat} (x y : BitVec w) (fill : Bool) (n : Nat) : Prop :=
  ∀ i < w, y.getLsbD i = if n + i < w then x.getLsbD (n + i) else fill

theorem shifted_sshiftRight {w : Nat} (x : BitVec w) (n : Nat) :
    FilledRight x (x.sshiftRight n) x.msb n := by
  intro i hi
  rw [BitVec.getLsbD_sshiftRight]
  simp [show ¬ w ≤ i by omega]

theorem shifted_ushiftRight {w : Nat} (x : BitVec w) (n : Nat) : FilledRight x (x >>> n) false n := by
  intro i _
  rw [BitVec.getLsbD_ushiftRight]
  by_cases h : n + i < w
  · rw [if_pos h]
  · rw [if_neg h, BitVec.getLsbD_of_ge _ _ (by omega)]

theorem FilledRight.unique {w : Nat} {x y z : BitVec w} {fill : Bool} {n : Nat} (hy : FilledRight x y fill n)
    (hz : FilledRight x z fill n) : y = z := by
  apply BitVec.eq_of_getLsbD_eq
  intro i hi
  rw [hy i hi, hz i hi]

/-- The two words of a shift to the right by 1 to 127. -/
theorem shifted_shr (undef : BitVec 64 → BitVec 64) {shr : BitVec 64 → Nat → BitVec 64}
    {sign : BitVec 64} {op : words} {fill : Bool} {n : Nat} (h0 : n ≠ 0) (hn : n < 128)
    (hshr : ∀ m, FilledRight op.msb (shr op.msb m) fill m) (hsign : ∀ i < 64, sign.getLsbD i = fill) :
    FilledRight op.value (op.shr undef shr sign n).value fill n := by
  intro i hi
  rw [getLsbD_value, getLsbD_value]
  simp only [words.shr]
  by_cases hlow : i < 64
  · rw [if_pos hlow]
    by_cases h64 : n < 64
    · -- the low word takes bits of both
      rw [if_pos h64, shift_left, if_pos (by omega), BitVec.getLsbD_or, BitVec.getLsbD_ushiftRight,
        BitVec.getLsbD_shiftLeft, if_pos (show n + i < 128 by omega),
        decide_eq_true hlow]
      by_cases hplace : n + i < 64
      · rw [if_pos hplace, decide_eq_true (show i < 64 - n by omega)]
        simp
      · rw [if_neg hplace, decide_eq_false (show ¬ i < 64 - n by omega),
          BitVec.getLsbD_of_ge op.lsb _ (by omega), show i - (64 - n) = n + i - 64 by omega]
        simp
    · have hplace : n - 64 + i = n + i - 64 := by omega
      have hinside : n + i - 64 < 64 ↔ n + i < 128 := by omega
      rw [if_neg h64, hshr _ i hlow, hplace, if_neg (show ¬ n + i < 64 by omega)]
      simp only [hinside]
  · rw [if_neg hlow, if_neg (show ¬ n + i < 64 by omega)]
    by_cases h64 : n < 64
    · have hplace : n + (i - 64) = n + i - 64 := by omega
      have hinside : n + i - 64 < 64 ↔ n + i < 128 := by omega
      rw [if_pos h64, hshr _ _ (by omega), hplace]
      simp only [hinside]
    · rw [if_neg h64, hsign _ (by omega), if_neg (show ¬ n + i < 128 by omega)]

theorem value_sshr (undef : BitVec 64 → BitVec 64) (op : words) {n : Nat} (h0 : n ≠ 0)
    (hn : n < 128) :
    (op.shr undef BitVec.sshiftRight (op.msb.sshiftRight 63) n).value = op.value.sshiftRight n := by
  have hsign : ∀ i < 64, (op.msb.sshiftRight 63).getLsbD i = op.msb.msb := by
    intro i hi
    rw [shifted_sshiftRight op.msb 63 i hi]
    by_cases h : 63 + i < 64
    · rw [if_pos h, BitVec.msb_eq_getLsbD_last, show 63 + i = 64 - 1 by omega]
    · rw [if_neg h]
  have h := shifted_shr undef h0 hn (shifted_sshiftRight op.msb) hsign
  rw [← value_msb] at h
  exact h.unique (shifted_sshiftRight op.value n)

theorem value_ushr (undef : BitVec 64 → BitVec 64) (op : words) {n : Nat} (h0 : n ≠ 0)
    (hn : n < 128) : (op.shr undef BitVec.ushiftRight 0 n).value = op.value >>> n :=
  (shifted_shr undef h0 hn (shifted_ushiftRight op.msb) (by simp)).unique
    (shifted_ushiftRight op.value n)

/-- By 0, the high word is left on the low one as the host shifts it by 64. -/
theorem value_shr_zero (undef : BitVec 64 → BitVec 64) {shr : BitVec 64 → Nat → BitVec 64}
    (sign : BitVec 64) (op : words) (hshr : shr op.msb 0 = op.msb) :
    (op.shr undef shr sign 0).value = op.value ↔ op.lsb ||| undef op.msb = op.lsb := by
  rw [value_inj]
  simp [words.shr, shift_left, hshr]

/-! ## Comparisons -/

theorem uint128_gt_value (a b : words) : uint128_gt a b = b.value.ult a.value := by
  have ha := a.lsb.isLt
  have hb := b.lsb.isLt
  rw [BitVec.ult, value_toNat, value_toNat]
  unfold uint128_gt
  simp only [BitVec.lt_def]
  split_ifs <;> simp <;> omega

theorem msb_iff_neg {w : Nat} (x : BitVec w) : x.msb = true ↔ x.toInt < 0 := by
  rw [BitVec.msb_eq_toInt, decide_eq_true_iff]

theorem int128_sign_value (op : words) : int128_sign op = op.value.toInt.sign := by
  have hzero : op.lsb = 0 ∧ op.msb = 0 ↔ op.value.toInt = 0 := by
    rw [← BitVec.toInt_zero (w := 128), BitVec.toInt_inj, and_comm]
    exact (value_inj (b := ⟨0, 0⟩)).symm
  have hneg : op.msb >>> 63 ≠ 0 ↔ op.value.toInt < 0 := by
    have hlt := op.msb.isLt
    rw [← msb_iff_neg, value_msb, BitVec.msb_eq_decide, decide_eq_true_iff, ne_eq,
      ← BitVec.toNat_inj, BitVec.toNat_ushiftRight, Nat.shiftRight_eq_div_pow]
    simp
  unfold int128_sign
  rw [if_congr hzero rfl (if_congr hneg rfl rfl)]
  obtain h | h | h := lt_trichotomy op.value.toInt 0
  · rw [if_neg h.ne, if_pos h, Int.sign_eq_neg_one_of_neg h]
  · rw [if_pos h, h]
    rfl
  · rw [if_neg h.ne', if_neg (by omega), Int.sign_eq_one_of_pos h]

theorem int128_gt_value (a b : words) : int128_gt a b = b.value.slt a.value := by
  unfold int128_gt
  simp only [int128_sign_value]
  by_cases hzero : a.value.toInt.sign = 0 ∧ b.value.toInt.sign = 0
  · rw [Int.sign_eq_zero_iff_zero, Int.sign_eq_zero_iff_zero] at hzero
    rw [if_pos (by simp [hzero]), BitVec.slt_eq_decide, hzero.1, hzero.2]
    rfl
  rw [if_neg hzero]
  by_cases hsign : a.value.toInt.sign = b.value.toInt.sign
  · -- two numbers of one sign compare as unsigned ones do
    have hmsb : b.value.msb = a.value.msb := by
      rw [Bool.eq_iff_iff, msb_iff_neg, msb_iff_neg, ← Int.sign_eq_neg_one_iff_neg,
        ← Int.sign_eq_neg_one_iff_neg, hsign]
    rw [if_neg (not_not.mpr hsign), uint128_gt_value, BitVec.slt_eq_ult_of_msb_eq hmsb]
  · rw [if_pos hsign, BitVec.slt_eq_decide]
    obtain ha | ha | ha := lt_trichotomy a.value.toInt 0 <;>
      obtain hb | hb | hb := lt_trichotomy b.value.toInt 0 <;>
      simp_all [Int.sign_eq_neg_one_of_neg, Int.sign_eq_one_of_pos] <;> omega

/-! ## Multiplication -/

/-- The limbs as numbers. -/
def limb_values (d : Nat → BitVec 32) (i : Nat) : Nat := (d i).toNat

def mul_state.row (s : mul_state) : Limbs.row := ⟨limb_values s.w, s.k.toNat⟩

section rows

variable (u v : Nat → BitVec 32) (j : Nat)

/-- One step, which does not overflow: a product of two limbs leaves room for two more. -/
theorem mul_inner_row {s : mul_state} (hk : s.k.toNat < 2 ^ 32) (i : Nat) :
    (mul_inner u v j s i).row
        = Limbs.mul_step (2 ^ 32) (limb_values u) (limb_values v j) j s.row i ∧
      (mul_inner u v j s i).k.toNat < 2 ^ 32 := by
  have hu := (u i).isLt
  have hv := (v j).isLt
  have hw := (s.w (i + j)).isLt
  have hmul : (u i).toNat * (v j).toNat ≤ (2 ^ 32 - 1) * (2 ^ 32 - 1) :=
    Nat.mul_le_mul (by omega) (by omega)
  have ht : ((u i).setWidth 64 * (v j).setWidth 64 + (s.w (i + j)).setWidth 64 + s.k).toNat
      = (u i).toNat * (v j).toNat + (s.w (i + j)).toNat + s.k.toNat := by
    rw [BitVec.toNat_add, BitVec.toNat_add, BitVec.toNat_mul, BitVec.toNat_setWidth_of_le (by decide),
      BitVec.toNat_setWidth_of_le (by decide), BitVec.toNat_setWidth_of_le (by decide)]
    omega
  have hcarry : ((u i).toNat * (v j).toNat + (s.w (i + j)).toNat + s.k.toNat) / 2 ^ 32 < 2 ^ 32 := by
    omega
  constructor
  · simp only [mul_inner, mul_state.row, Limbs.mul_step, BitVec.toNat_ushiftRight, ht,
      Nat.shiftRight_eq_div_pow]
    congr 1
    funext n
    by_cases hn : n = i + j
    · subst hn
      simp only [limb_values, Function.update_self, BitVec.toNat_setWidth, ht]
    · simp only [limb_values, Function.update_of_ne hn]
  · simp only [mul_inner, BitVec.toNat_ushiftRight, ht, Nat.shiftRight_eq_div_pow]
    exact hcarry

theorem mul_fold_row (w : Nat → BitVec 32) (n : Nat) :
    ((List.range n).foldl (mul_inner u v j) ⟨w, 0⟩).row
        = Limbs.mul_row (2 ^ 32) (limb_values u) (limb_values v j) j (limb_values w) n ∧
      ((List.range n).foldl (mul_inner u v j) ⟨w, 0⟩).k.toNat < 2 ^ 32 := by
  induction n with
  | zero => exact ⟨rfl, Nat.two_pow_pos 32⟩
  | succ n ih =>
    rw [List.range_succ, List.foldl_append, Limbs.mul_row_succ, ← ih.1]
    exact mul_inner_row u v j ih.2 n

theorem mul_outer_rows (n : Nat) :
    limb_values ((List.range n).foldl (mul_outer u v) fun _ => 0)
      = Limbs.mul_rows (2 ^ 32) (limb_values u) (limb_values v) 4 (fun _ => 0) n := by
  induction n with
  | zero => rfl
  | succ n ih =>
    rw [List.range_succ, List.foldl_append, Limbs.mul_rows_succ, ← ih]
    exact congrArg Limbs.row.w (mul_fold_row u v n _ (4 - n)).1

end rows

/-- Four limbs are the two words. -/
theorem value_limbs (op : words) :
    Limbs.value (2 ^ 32) (limb_values op.limbs) 4 = op.value.toNat := by
  have hmsb := op.msb.isLt
  have hlsb := op.lsb.isLt
  rw [value_toNat]
  simp [Limbs.value, Finset.sum_range_succ, limb_values, words.limbs, Nat.shiftRight_eq_div_pow]
  omega

/-- The words that are put together from the limbs. -/
theorem value_of_limbs (w : Nat → BitVec 32) :
    (words.value ⟨((w 3).setWidth 64 <<< 32) + (w 2).setWidth 64,
        ((w 1).setWidth 64 <<< 32) + (w 0).setWidth 64⟩).toNat
      = Limbs.value (2 ^ 32) (limb_values w) 4 := by
  have h0 := (w 0).isLt
  have h1 := (w 1).isLt
  have h2 := (w 2).isLt
  have h3 := (w 3).isLt
  rw [value_toNat]
  simp [Limbs.value, Finset.sum_range_succ, limb_values, Nat.shiftLeft_eq]
  omega

theorem value_mul (a b : words) : (uint128_mul a b).value = a.value * b.value := by
  have hrows := Limbs.mul_rows_value (B := 2 ^ 32) (limb_values a.limbs) (limb_values b.limbs)
    (fun _ => 0) (le_refl 4)
  rw [← mul_outer_rows, value_limbs, value_limbs] at hrows
  have hzero : Limbs.value (2 ^ 32) (fun _ => 0) 4 = 0 := by simp [Limbs.value]
  have hmod : (uint128_mul a b).value.toNat ≡ b.value.toNat * a.value.toNat [MOD (2 ^ 32) ^ 4] := by
    rw [uint128_mul, value_of_limbs]
    rw [hzero, Nat.zero_add] at hrows
    exact hrows
  apply BitVec.eq_of_toNat_eq
  rw [BitVec.toNat_mul, Nat.mul_comm, ← Nat.mod_eq_of_lt (uint128_mul a b).value.isLt]
  exact hmod

/-! ## Conversions -/

theorem int64_to_int128_t_value (i : BitVec 64) : (int64_to_int128_t i).value = i.signExtend 128 := by
  apply BitVec.eq_of_getLsbD_eq
  intro k hk
  rw [getLsbD_value, BitVec.getLsbD_signExtend, decide_eq_true hk, Bool.true_and]
  have hfill : (int64_to_int128_t i).msb.getLsbD (k - 64) = i.msb := by
    rw [int64_to_int128_t, BitVec.msb_eq_toInt]
    by_cases h : i.toInt < 0
    · rw [if_pos h, BitVec.getLsbD_not, decide_eq_true (show k - 64 < 64 by omega), decide_eq_true h]
      simp
    · simp [h]
  simp only [hfill]
  rfl

theorem uint64_to_uint128_t_value (i : BitVec 64) :
    (uint64_to_uint128_t i).value = i.setWidth 128 := by
  apply BitVec.eq_of_toNat_eq
  rw [value_toNat, BitVec.toNat_setWidth_of_le (by decide)]
  simp [uint64_to_uint128_t]

/-! ## The two kinds of integers -/

/-- The functions give what they give with the integers of the compiler, where `s` and `u` say which
    ones the values are: for all operands, and for all shifts but those to the right by 0. -/
structure int128_ops.Represents (ops : int128_ops) (s : ops.int128_t → BitVec 128)
    (u : ops.uint128_t → BitVec 128) : Prop where
  int64_max : s ops.INT128_INT64_MAX = native.INT128_INT64_MAX
  int64_min : s ops.INT128_INT64_MIN = native.INT128_INT64_MIN
  uint64_max : s ops.INT128_UINT64_MAX = native.INT128_UINT64_MAX
  zero : s ops.INT128_ZERO = native.INT128_ZERO
  one : s ops.INT128_ONE = native.INT128_ONE
  u_uint64_max : u ops.UINT128_UINT64_MAX = native.UINT128_UINT64_MAX
  u_zero : u ops.UINT128_ZERO = native.UINT128_ZERO
  u_one : u ops.UINT128_ONE = native.UINT128_ONE
  gt : ∀ a b, ops.int128_gt a b = native.int128_gt (s a) (s b)
  to_int64 : ∀ a, ops.int128_to_int64_t a = native.int128_to_int64_t (s a)
  to_uint64 : ∀ a, ops.int128_to_uint64_t a = native.int128_to_uint64_t (s a)
  of_int64 : ∀ i, s (ops.int64_to_int128_t i) = native.int64_to_int128_t i
  shl : ∀ a shift, (ops.int128_shl a shift).map s = native.int128_shl (s a) shift
  shr : ∀ a shift, shift ≠ 0 → (ops.int128_shr a shift).map s = native.int128_shr (s a) shift
  add : ∀ a b, s (ops.int128_add a b) = native.int128_add (s a) (s b)
  sub : ∀ a b, s (ops.int128_sub a b) = native.int128_sub (s a) (s b)
  mul : ∀ a b, s (ops.int128_mul a b) = native.int128_mul (s a) (s b)
  u_gt : ∀ p q, ops.uint128_gt p q = native.uint128_gt (u p) (u q)
  u_to_uint64 : ∀ p, ops.uint128_to_uint64_t p = native.uint128_to_uint64_t (u p)
  of_uint64 : ∀ i, u (ops.uint64_to_uint128_t i) = native.uint64_to_uint128_t i
  u_shl : ∀ p shift, (ops.uint128_shl p shift).map u = native.uint128_shl (u p) shift
  u_shr : ∀ p shift, shift ≠ 0 → (ops.uint128_shr p shift).map u = native.uint128_shr (u p) shift
  u_add : ∀ p q, u (ops.uint128_add p q) = native.uint128_add (u p) (u q)
  u_sub : ∀ p q, u (ops.uint128_sub p q) = native.uint128_sub (u p) (u q)
  to_int128 : ∀ p, s (ops.uint128_to_int128 p) = native.uint128_to_int128 (u p)

theorem native_represents : native.Represents id id := by
  constructor <;> intros <;> first | rfl | exact congrFun Option.map_id _

/-- Shifts agree when their results do at the amounts that pass the assertion. -/
theorem assert_shift_map {α β : Type} {f : α → β} {shift : Int} {res : Nat → α} {res' : Nat → β}
    (h : 0 ≤ shift → shift < 128 → f (res shift.toNat) = res' shift.toNat) :
    (assert_shift shift res).map f = assert_shift shift res' := by
  unfold assert_shift
  split_ifs with hs
  · exact congrArg some (h hs.1 hs.2)
  · rfl

theorem software_represents (undef : BitVec 64 → BitVec 64) :
    (software undef).Represents words.value words.value := by
  have hmax : words.value ⟨0, 0x7fffffffffffffff⟩ = 0x7fffffffffffffff := by decide
  have hmin : words.value ⟨~~~ 0, 0x8000000000000000⟩ = -0x7fffffffffffffff - 1 := by decide
  have humax : words.value ⟨0, 0xffffffffffffffff⟩ = 0xffffffffffffffff := by decide
  have hzero : words.value ⟨0, 0⟩ = 0 := by decide
  have hone : words.value ⟨0, 1⟩ = 1 := by decide
  exact
    { int64_max := hmax
      int64_min := hmin
      uint64_max := humax
      zero := hzero
      one := hone
      u_uint64_max := humax
      u_zero := hzero
      u_one := hone
      gt := int128_gt_value
      to_int64 := fun a => (value_setWidth a).symm
      to_uint64 := fun a => (value_setWidth a).symm
      of_int64 := int64_to_int128_t_value
      shl := fun a _ => assert_shift_map fun _ hlt => value_shl a (by omega)
      shr := fun a _ h0 => assert_shift_map fun _ hlt => value_sshr undef a (by omega) (by omega)
      add := value_add
      sub := value_sub
      mul := value_mul
      u_gt := uint128_gt_value
      u_to_uint64 := fun p => (value_setWidth p).symm
      of_uint64 := uint64_to_uint128_t_value
      u_shl := fun p _ => assert_shift_map fun _ hlt => value_shl p (by omega)
      u_shr := fun p _ h0 => assert_shift_map fun _ hlt => value_ushr undef p (by omega) (by omega)
      u_add := value_add
      u_sub := value_sub
      to_int128 := fun _ => rfl }

/-- One call of each function gives what it gives with the integers of the compiler. A change of sign
    is a difference. -/
structure int128_ops.SameAt (ops : int128_ops) (s : ops.int128_t → BitVec 128)
    (u : ops.uint128_t → BitVec 128) (a b : ops.int128_t) (p q : ops.uint128_t)
    (i : BitVec 64) (shift : Int) : Prop where
  gt : ops.int128_gt a b = native.int128_gt (s a) (s b)
  to_int64 : ops.int128_to_int64_t a = native.int128_to_int64_t (s a)
  to_uint64 : ops.int128_to_uint64_t a = native.int128_to_uint64_t (s a)
  of_int64 : s (ops.int64_to_int128_t i) = native.int64_to_int128_t i
  shl : (ops.int128_shl a shift).map s = native.int128_shl (s a) shift
  shr : (ops.int128_shr a shift).map s = native.int128_shr (s a) shift
  add : s (ops.int128_add a b) = native.int128_add (s a) (s b)
  sub : s (ops.int128_sub a b) = native.int128_sub (s a) (s b)
  neg : s (ops.int128_sub ops.INT128_ZERO a) = -s a
  mul : s (ops.int128_mul a b) = native.int128_mul (s a) (s b)
  u_gt : ops.uint128_gt p q = native.uint128_gt (u p) (u q)
  u_to_uint64 : ops.uint128_to_uint64_t p = native.uint128_to_uint64_t (u p)
  of_uint64 : u (ops.uint64_to_uint128_t i) = native.uint64_to_uint128_t i
  u_shl : (ops.uint128_shl p shift).map u = native.uint128_shl (u p) shift
  u_shr : (ops.uint128_shr p shift).map u = native.uint128_shr (u p) shift
  u_add : u (ops.uint128_add p q) = native.uint128_add (u p) (u q)
  u_sub : u (ops.uint128_sub p q) = native.uint128_sub (u p) (u q)
  to_int128 : s (ops.uint128_to_int128 p) = native.uint128_to_int128 (u p)

/-- Where the right shifts agree, everything does. -/
theorem int128_ops.Represents.same {ops : int128_ops} {s : ops.int128_t → BitVec 128}
    {u : ops.uint128_t → BitVec 128} (h : ops.Represents s u) {a b : ops.int128_t}
    {p q : ops.uint128_t} {i : BitVec 64} {shift : Int}
    (hs : (ops.int128_shr a shift).map s = native.int128_shr (s a) shift)
    (hu : (ops.uint128_shr p shift).map u = native.uint128_shr (u p) shift) :
    ops.SameAt s u a b p q i shift :=
  have hneg : s (ops.int128_sub ops.INT128_ZERO a) = -s a := by
    rw [h.sub, h.zero]
    exact BitVec.zero_sub (s a)
  ⟨h.gt a b, h.to_int64 a, h.to_uint64 a, h.of_int64 i, h.shl a shift, hs, h.add a b, h.sub a b, hneg,
    h.mul a b, h.u_gt p q, h.u_to_uint64 p, h.of_uint64 i, h.u_shl p shift, hu, h.u_add p q, h.u_sub p q,
    h.to_int128 p⟩

/-- The functions over two words agree with those over the compiler's integers, but for a shift to
    the right by 0 that finds in the shifted high word a bit that the low word has not. -/
theorem same_as_native (undef : BitVec 64 → BitVec 64) (a b : int128_t) (p q : uint128_t)
    (i : BitVec 64) (shift : Int) :
    (software undef).SameAt words.value words.value a b p q i shift ↔
      (shift = 0 → a.lsb ||| undef a.msb = a.lsb ∧ p.lsb ||| undef p.msb = p.lsb) := by
  have hrep := software_represents undef
  by_cases h0 : shift = 0
  · subst h0
    have hs : some (a.shr undef BitVec.sshiftRight (a.msb.sshiftRight 63) 0).value
        = some (a.value.sshiftRight 0) ↔ a.lsb ||| undef a.msb = a.lsb := by
      rw [Option.some_inj, BitVec.sshiftRight_zero]
      exact value_shr_zero undef _ a (by simp)
    have hu : some (p.shr undef BitVec.ushiftRight 0 0).value = some (p.value >>> 0)
        ↔ p.lsb ||| undef p.msb = p.lsb := by
      rw [Option.some_inj, BitVec.ushiftRight_zero]
      exact value_shr_zero undef _ p (by simp)
    constructor
    · intro h _
      exact ⟨hs.mp h.shr, hu.mp h.u_shr⟩
    · intro h
      exact hrep.same (hs.mpr (h rfl).1) (hu.mpr (h rfl).2)
  · constructor
    · intro _ h
      exact absurd h h0
    · intro _
      exact hrep.same (hrep.shr a shift h0) (hrep.u_shr p shift h0)

/-- On a 32-bit x86, which leaves a word that is shifted by 64 as it is, `2 ^ 64` shifted to the right
    by 0 becomes `2 ^ 64 + 1`. -/
theorem shr_by_zero :
    ¬ (software id).SameAt words.value words.value ⟨1, 0⟩ ⟨0, 0⟩ ⟨1, 0⟩ ⟨0, 0⟩ 0 0 := by
  intro h
  have hshr : some (words.value ⟨1, 1⟩) = some (words.value ⟨1, 0⟩) := h.u_shr
  exact absurd (Option.some.inj hshr) (by decide)

end Umeq.Arm
