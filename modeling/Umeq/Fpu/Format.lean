import Umeq.Lib.Rounding

/-! # Floating-point words of `softfloat.c`

    `float32` and `float64` are words of a sign, an exponent and a fraction. The two have the
    same functions in the source, one for each format: what they do is written once for a
    `float_format`, and each keeps its name for its own format.

    * `float_status`: modes and exceptions, as `TARGET_ARM` has them.
    * `extractFloatFrac`, `extractFloatExp`, `extractFloatSign`, `packFloat`: fields of a word.
    * `value`: the number that a finite word stands for.
-/

namespace Umeq.Fpu

open Rounding

/-! ## Formats -/

inductive float_format where
  | float32 | float64
  deriving DecidableEq, Repr

namespace float_format

def exp_bits : float_format → ℕ
  | float32 => 8
  | float64 => 11

def frac_bits : float_format → ℕ
  | float32 => 23
  | float64 => 52

def width : float_format → ℕ
  | float32 => 32
  | float64 => 64

/-- The exponent of infinities and of NaNs. -/
def exp_max : float_format → ℕ
  | float32 => 0xFF
  | float64 => 0x7FF

/-- The exponent of one. -/
def bias : float_format → ℕ
  | float32 => 0x7F
  | float64 => 0x3FF

/-- Bits below the significand in the words that are rounded: 7 and 10. -/
def guard : float_format → ℕ
  | float32 => 7
  | float64 => 10

/-- Bits of a significand, with the one that no word holds. -/
def precision (F : float_format) : ℕ := F.frac_bits + 1

/-- The exponent of the last bit of subnormal numbers. -/
def emin (F : float_format) : ℤ := 1 - F.bias - F.frac_bits

variable (F : float_format)

theorem width_eq : F.width = F.exp_bits + F.frac_bits + 1 := by cases F <;> rfl

theorem guard_eq : F.frac_bits + F.guard + 2 = F.width := by cases F <;> rfl

theorem guard_pos : 1 ≤ F.guard := by cases F <;> decide

theorem exp_max_eq : F.exp_max + 1 = 2 ^ F.exp_bits := by cases F <;> rfl

theorem exp_max_pos : 4 ≤ F.exp_max := by cases F <;> decide

theorem precision_ge : 2 ≤ F.precision := by cases F <;> decide

end float_format

/-! ## Status -/

inductive tininess where
  | float_tininess_after_rounding | float_tininess_before_rounding
  deriving DecidableEq, Repr

/-- `float_status`; the precision of extended numbers is left out. -/
structure float_status where
  float_detect_tininess : tininess
  float_rounding_mode : Mode
  float_exception_flags : BitVec 8
  flush_to_zero : Bool
  flush_inputs_to_zero : Bool
  default_nan_mode : Bool
  deriving DecidableEq, Repr

def float_flag_invalid : BitVec 8 := 1#8
def float_flag_divbyzero : BitVec 8 := 4#8
def float_flag_overflow : BitVec 8 := 8#8
def float_flag_underflow : BitVec 8 := 16#8
def float_flag_inexact : BitVec 8 := 32#8
def float_flag_input_denormal : BitVec 8 := 64#8
def float_flag_output_denormal : BitVec 8 := 128#8

def float_raise (flags : BitVec 8) (st : float_status) : float_status :=
  { st with float_exception_flags := st.float_exception_flags ||| flags }

/-- What a main thread starts with. -/
def initial_status : float_status :=
  ⟨.float_tininess_before_rounding, .nearest_even, 0#8, false, false, false⟩

section status

variable (flags more : BitVec 8) (st : float_status)

@[simp] theorem raise_detect :
    (float_raise flags st).float_detect_tininess = st.float_detect_tininess := rfl

@[simp] theorem raise_mode : (float_raise flags st).float_rounding_mode = st.float_rounding_mode := rfl

@[simp] theorem raise_flush : (float_raise flags st).flush_to_zero = st.flush_to_zero := rfl

@[simp] theorem raise_flush_inputs :
    (float_raise flags st).flush_inputs_to_zero = st.flush_inputs_to_zero := rfl

@[simp] theorem raise_default_nan : (float_raise flags st).default_nan_mode = st.default_nan_mode := rfl

@[simp] theorem raise_zero : float_raise 0#8 st = st := by simp [float_raise]

theorem raise_raise : float_raise more (float_raise flags st) = float_raise (flags ||| more) st := by
  simp only [float_raise, BitVec.or_assoc]

end status

/-! ## Fields -/

section fields

variable (F : float_format)

def extractFloatFrac (a : ℕ) : ℕ := a &&& (2 ^ F.frac_bits - 1)

def extractFloatExp (a : ℕ) : ℕ := (a >>> F.frac_bits) &&& F.exp_max

/-- `a >> 31` or `a >> 63`, as a flag. -/
def extractFloatSign (a : ℕ) : Bool := a >>> (F.width - 1) != 0

/-- Shifted into place, the three are added: an integer bit of `zSig` goes to the exponent. -/
def packFloat (zSign : Bool) (zExp : ℤ) (zSig : ℕ) : ℕ :=
  ((zSign.toNat * 2 ^ (F.width - 1) + zExp * 2 ^ F.frac_bits + zSig) % 2 ^ F.width).toNat

def float_is_any_nan (a : ℕ) : Bool :=
  a % 2 ^ (F.width - 1) > F.exp_max * 2 ^ F.frac_bits

def float_is_infinity (a : ℕ) : Bool :=
  a % 2 ^ (F.width - 1) == F.exp_max * 2 ^ F.frac_bits

def float_is_zero (a : ℕ) : Bool := a % 2 ^ (F.width - 1) == 0

end fields

/-! ## Values -/

section values

variable (F : float_format)

/-- Words of finite numbers. -/
def Finite (a : ℕ) : Prop := a < 2 ^ F.width ∧ extractFloatExp F a ≠ F.exp_max

instance (a : ℕ) : Decidable (Finite F a) := inferInstanceAs (Decidable (_ ∧ _))

/-- The significand, with the leading bit of the normal numbers. -/
def significand (a : ℕ) : ℕ :=
  extractFloatFrac F a + if extractFloatExp F a = 0 then 0 else 2 ^ F.frac_bits

/-- The exponent of the last bit of the significand. -/
def scale (a : ℕ) : ℤ :=
  (if extractFloatExp F a = 0 then 0 else (extractFloatExp F a : ℤ) - 1) + F.emin

def magnitude (a : ℕ) : ℚ := significand F a * 2 ^ scale F a

/-- A number with the sign of a word. -/
def signed (sign : Bool) (x : ℚ) : ℚ := if sign then -x else x

/-- The number that a finite word stands for. -/
def value (a : ℕ) : ℚ := signed (extractFloatSign F a) (magnitude F a)

variable {F} {a : ℕ}

theorem frac_eq : extractFloatFrac F a = a % 2 ^ F.frac_bits := Nat.and_two_pow_sub_one_eq_mod _ _

theorem exp_eq : extractFloatExp F a = a / 2 ^ F.frac_bits % 2 ^ F.exp_bits := by
  have h : F.exp_max = 2 ^ F.exp_bits - 1 := by have := F.exp_max_eq; omega
  rw [extractFloatExp, h, Nat.and_two_pow_sub_one_eq_mod, Nat.shiftRight_eq_div_pow]

theorem frac_lt : extractFloatFrac F a < 2 ^ F.frac_bits := by
  rw [frac_eq]
  exact Nat.mod_lt _ (by positivity)

theorem exp_le : extractFloatExp F a ≤ F.exp_max := Nat.and_le_right

theorem magnitude_nonneg : 0 ≤ magnitude F a := mul_nonneg (Nat.cast_nonneg _) (by positivity)

@[simp] theorem signed_zero (sign : Bool) : signed sign 0 = 0 := by cases sign <;> simp [signed]

@[simp] theorem abs_signed (sign : Bool) (x : ℚ) : |signed sign x| = |x| := by
  cases sign <;> simp [signed]

theorem signed_mul (s t : Bool) (x y : ℚ) : signed s x * signed t y = signed (s ^^ t) (x * y) := by
  cases s <;> cases t <;> simp [signed]

theorem signed_add (s : Bool) (x y : ℚ) : signed s (x + y) = signed s x + signed s y := by
  cases s <;> simp [signed, add_comm]

theorem signed_sub (s : Bool) (x y : ℚ) : signed s (x - y) = signed s x - signed s y := by
  cases s
  · simp [signed]
  · simp only [signed, if_true]
    ring

theorem signed_not (s : Bool) (x : ℚ) : signed (!s) x = signed s (-x) := by
  cases s <;> simp [signed]

theorem signed_neg (s : Bool) (x : ℚ) : signed s (-x) = -signed s x := by
  cases s <;> simp [signed]

theorem signed_eq_zero {sign : Bool} {x : ℚ} : signed sign x = 0 ↔ x = 0 := by
  cases sign <;> simp [signed]

theorem abs_value : |value F a| = magnitude F a := by
  rw [value, abs_signed, abs_of_nonneg magnitude_nonneg]

/-- The fields of a word that is put together of a sign and of what is below it. -/
theorem fields_of_sum (sign : Bool) {M : ℕ} (hM : M < 2 ^ (F.width - 1)) :
    extractFloatFrac F (sign.toNat * 2 ^ (F.width - 1) + M) = M % 2 ^ F.frac_bits ∧
    extractFloatExp F (sign.toNat * 2 ^ (F.width - 1) + M) = M / 2 ^ F.frac_bits ∧
    extractFloatSign F (sign.toNat * 2 ^ (F.width - 1) + M) = sign := by
  rw [frac_eq, exp_eq, extractFloatSign, Nat.shiftRight_eq_div_pow]
  cases F <;> simp only [float_format.frac_bits, float_format.exp_bits, float_format.width] at hM ⊢ <;>
    cases sign <;> norm_num at hM ⊢ <;> omega

/-- A word is put together of its sign and of what is below it. -/
theorem exists_sum (ha : a < 2 ^ F.width) : ∃ M < 2 ^ (F.width - 1),
    a = (extractFloatSign F a).toNat * 2 ^ (F.width - 1) + M := by
  refine ⟨a % 2 ^ (F.width - 1), Nat.mod_lt _ (by positivity), ?_⟩
  have hpow : 2 ^ F.width = 2 * 2 ^ (F.width - 1) := two_pow_pred (by cases F <;> decide)
  have hdiv := Nat.div_add_mod a (2 ^ (F.width - 1))
  have hlt : a / 2 ^ (F.width - 1) < 2 := Nat.div_lt_of_lt_mul (by omega)
  rw [extractFloatSign, Nat.shiftRight_eq_div_pow]
  generalize a / 2 ^ (F.width - 1) = q at *
  rcases (by omega : q = 0 ∨ q = 1) with rfl | rfl
  · simp at hdiv ⊢
    omega
  · simp at hdiv ⊢
    omega

/-- A significand and an exponent that are added stand for their number: a significand with its
    leading bit, also right after a carry, or a smaller one at the smallest exponent. -/
theorem magnitude_of_sum (sign : Bool) {k n : ℕ} (hn : 2 ^ F.frac_bits ≤ n ∨ k = 0)
    (hn' : n ≤ 2 ^ F.precision) (hM : k * 2 ^ F.frac_bits + n < 2 ^ (F.width - 1)) :
    magnitude F (sign.toNat * 2 ^ (F.width - 1) + (k * 2 ^ F.frac_bits + n))
      = n * 2 ^ (k + F.emin) := by
  obtain ⟨hfrac, hexp, -⟩ := fields_of_sum sign hM
  have hpos : 0 < 2 ^ F.frac_bits := by positivity
  rw [magnitude, significand, scale, hfrac, hexp]
  rw [float_format.precision, pow_succ] at hn'
  rw [Nat.add_comm (k * _), Nat.add_mul_mod_self_right, Nat.add_mul_div_right _ _ hpos]
  rcases Nat.lt_or_ge n (2 ^ F.frac_bits) with hlt | hge
  · -- a subnormal number
    obtain rfl : k = 0 := hn.resolve_left (by omega)
    rw [Nat.div_eq_of_lt hlt, Nat.mod_eq_of_lt hlt]
    simp
  rcases Nat.lt_or_ge n (2 * 2 ^ F.frac_bits) with hlt' | hge'
  · have hdiv : n / 2 ^ F.frac_bits = 1 := Nat.div_eq_of_lt_le (by omega) (by omega)
    have hmod : n % 2 ^ F.frac_bits = n - 2 ^ F.frac_bits := by
      have := Nat.div_add_mod n (2 ^ F.frac_bits)
      rw [hdiv] at this
      omega
    rw [hdiv, hmod, if_neg (by omega), if_neg (by omega), Nat.sub_add_cancel hge]
    congr 2
    push_cast
    ring
  · -- the carry leaves nothing but the leading bit
    obtain rfl : n = 2 * 2 ^ F.frac_bits := by omega
    rw [Nat.mul_div_cancel _ hpos, Nat.mul_mod_left, if_neg (by omega), if_neg (by omega), Nat.zero_add]
    have hexp' : ((2 + k : ℕ) : ℤ) - 1 + F.emin = (k + F.emin) + 1 := by push_cast; ring
    rw [hexp', zpow_add_one₀ (by norm_num)]
    push_cast
    ring

end values

end Umeq.Fpu
