import Umeq.Fpu.Arithmetic
import Umeq.Fpu.Wide

/-! # `float32_muladd` and `float64_muladd`

    The product is not rounded before the addend is added: both are held with twice the width, the
    smaller one is shifted down with a sticky bit, and the sum or the difference is rounded once.

    * `muladdFinite_delivered`: what becomes of finite operands that are not zero.
    * `muladd_met`: the function on all words, with its flags.
-/

namespace Umeq.Fpu

open Rounding

variable {F : float_format} {st : float_status} {a b c : ℕ} {W : Type}

/-! ## NaNs -/

/-- Which of three NaNs is delivered: 0 for `a`, 1 for `b`, 2 for `c` and 3 for the default one. -/
def pickNaNMulAdd (aIsQNaN aIsSNaN bIsSNaN cIsQNaN cIsSNaN infzero : Bool) (st : float_status) :
    ℕ × float_status :=
  if infzero && cIsQNaN then (3, float_raise float_flag_invalid st)
  else (if cIsSNaN then 2 else if aIsSNaN then 0 else if bIsSNaN then 1 else if cIsQNaN then 2
    else if aIsQNaN then 0 else 1, st)

/-- `propagateFloat32MulAddNaN` and `propagateFloat64MulAddNaN`. -/
def propagateFloatMulAddNaN (F : float_format) (a b c : ℕ) (infzero : Bool) (st : float_status) : ℕ × float_status :=
  let aIsSignalingNaN := float_is_signaling_nan F a
  let bIsSignalingNaN := float_is_signaling_nan F b
  let cIsSignalingNaN := float_is_signaling_nan F c
  let st := if aIsSignalingNaN || bIsSignalingNaN || cIsSignalingNaN then float_raise float_flag_invalid st else st
  let which := pickNaNMulAdd (float_is_quiet_nan F a) aIsSignalingNaN bIsSignalingNaN (float_is_quiet_nan F c)
    cIsSignalingNaN infzero st
  if which.2.default_nan_mode then (float_default_nan F, which.2)
  else match which.1 with
    | 0 => (float_maybe_silence_nan F a, which.2)
    | 1 => (float_maybe_silence_nan F b, which.2)
    | 2 => (float_maybe_silence_nan F c, which.2)
    | _ => (float_default_nan F, which.2)

/-! ## The function -/

def float_muladd_negate_c : ℕ := 1
def float_muladd_negate_product : ℕ := 2
def float_muladd_negate_result : ℕ := 4
def float_muladd_halve_result : ℕ := 8

/-- A flag of the argument `flags`. -/
def has_flag (flags flag : ℕ) : Bool := flags &&& flag != 0

/-- The product with its explicit bit below the upper one, and its exponent. -/
def muladdProduct (ops : wide W) (F : float_format) (a b : ℤ × ℕ) : ℤ × W :=
  let pExp := a.1 + b.1 - (F.bias - 1)
  let aSig := ((a.2 ||| 2 ^ F.frac_bits) <<< F.guard) % 2 ^ F.width
  let bSig := ((b.2 ||| 2 ^ F.frac_bits) <<< (F.guard + 1)) % 2 ^ F.width
  let pSig := ops.product aSig bSig
  if ops.second_bit pSig then (pExp, pSig) else (pExp - 1, ops.double pSig)

/-- The sum of significands, with its exponent less one. -/
def muladdAdd (ops : wide W) (p c : ℤ × W) : ℤ × W :=
  let expDiff := p.1 - c.1
  let cSig := if 0 < expDiff then ops.rightJamming c.2 expDiff.toNat else c.2
  let pSig := if expDiff < 0 then ops.rightJamming p.2 (-expDiff).toNat else p.2
  let zExp := if 0 < expDiff then p.1 else c.1
  let zSig := ops.add pSig cSig
  if ops.upper_bit zSig then (zExp, ops.rightJamming zSig 1) else (zExp - 1, zSig)

/-- The difference, its exponent, and if the addend is the larger one; none if they are equal. -/
def muladdSub (ops : wide W) (p c : ℤ × W) : Option (Bool × ℤ × W) :=
  let expDiff := p.1 - c.1
  if 0 < expDiff then some (false, p.1, ops.sub p.2 (ops.rightJamming c.2 expDiff.toNat))
  else if expDiff < 0 then some (true, c.1, ops.sub c.2 (ops.rightJamming p.2 (-expDiff).toNat))
  else if ops.lt c.2 p.2 then some (false, p.1, ops.sub p.2 c.2)
  else if ops.lt p.2 c.2 then some (true, p.1, ops.sub c.2 p.2)
  else none

/-- After the product, for an addend that is not zero. -/
def muladdAligned (ops : wide W) (F : float_format) (pSign cSign signflip halve : Bool) (p c : ℤ × W)
    (st : float_status) : ℕ × float_status :=
  if pSign = cSign then
    let z := muladdAdd ops p c
    roundAndPackFloat F (pSign ^^ signflip) (if halve then z.1 - 1 else z.1) (ops.upper z.2) st
  else match muladdSub ops p c with
    | none => (packFloat F (signflip ^^ decide (st.float_rounding_mode = .down)) 0 0, st)
    | some (swapped, zExp, zSig) =>
      let n := ops.normalized zSig
      let zExp := zExp - 1 - n.1
      roundAndPackFloat F (pSign ^^ signflip ^^ swapped) (if halve then zExp - 1 else zExp) n.2 st

/-- After the special operands. -/
def muladdFinite (ops : wide W) (F : float_format) (pSign cSign signflip halve : Bool) (a b : ℤ × ℕ)
    (cExp cSig : ℕ) (st : float_status) : ℕ × float_status :=
  let p := muladdProduct ops F a b
  if cExp = 0 ∧ cSig = 0 then
    let pExp := if halve then p.1 - 1 else p.1
    roundAndPackFloat F (pSign ^^ signflip) (pExp - 1) (ops.upper p.2) st
  else
    let c := unpacked F cExp cSig
    muladdAligned ops F pSign cSign signflip halve p (c.1, ops.addend c.2) st

/-- A product that is zero. -/
def muladdZero (F : float_format) (pSign cSign signflip halve : Bool) (cExp cSig : ℕ) (st : float_status) :
    ℕ × float_status :=
  if cExp = 0 ∧ cSig = 0 then
    let zSign := if pSign = cSign then pSign else decide (st.float_rounding_mode = .down)
    (packFloat F (zSign ^^ signflip) 0 0, st)
  else if cExp = 0 ∧ st.flush_to_zero = true then
    (packFloat F (cSign ^^ signflip) 0 0, float_raise float_flag_output_denormal st)
  else if halve then
    let c := unpacked F cExp cSig
    roundAndPackFloat F (cSign ^^ signflip) (c.1 - 2) (((c.2 ||| 2 ^ F.frac_bits) <<< F.guard) % 2 ^ F.width) st
  else (packFloat F (cSign ^^ signflip) cExp cSig, st)

/-- An infinity times a zero. -/
def infzero (F : float_format) (a b : ℕ) : Bool :=
  (extractFloatExp F a = 0 ∧ extractFloatFrac F a = 0 ∧ extractFloatExp F b = F.exp_max ∧ extractFloatFrac F b = 0) ∨
    (extractFloatExp F a = F.exp_max ∧ extractFloatFrac F a = 0 ∧ extractFloatExp F b = 0 ∧ extractFloatFrac F b = 0)

/-- After the operands are squashed. -/
def muladdSquashed (ops : wide W) (F : float_format) (a b c flags : ℕ) (st : float_status) : ℕ × float_status :=
  let aSig := extractFloatFrac F a
  let aExp := extractFloatExp F a
  let bSig := extractFloatFrac F b
  let bExp := extractFloatExp F b
  let cSig := extractFloatFrac F c
  let cExp := extractFloatExp F c
  if aExp = F.exp_max ∧ aSig ≠ 0 ∨ bExp = F.exp_max ∧ bSig ≠ 0 ∨ cExp = F.exp_max ∧ cSig ≠ 0 then
    propagateFloatMulAddNaN F a b c (infzero F a b) st
  else if infzero F a b then (float_default_nan F, float_raise float_flag_invalid st)
  else
    let cSign := extractFloatSign F c ^^ has_flag flags float_muladd_negate_c
    let signflip := has_flag flags float_muladd_negate_result
    let halve := has_flag flags float_muladd_halve_result
    let pSign := extractFloatSign F a ^^ extractFloatSign F b ^^ has_flag flags float_muladd_negate_product
    let pInf := aExp = F.exp_max ∨ bExp = F.exp_max
    let pZero := (aExp ||| aSig) = 0 ∨ (bExp ||| bSig) = 0
    if cExp = F.exp_max then
      if pInf ∧ (pSign ^^ cSign) = true then (float_default_nan F, float_raise float_flag_invalid st)
      else (packFloat F (cSign ^^ signflip) F.exp_max 0, st)
    else if pInf then (packFloat F (pSign ^^ signflip) F.exp_max 0, st)
    else if pZero then muladdZero F pSign cSign signflip halve cExp cSig st
    else muladdFinite ops F pSign cSign signflip halve (unpacked F aExp aSig) (unpacked F bExp bSig) cExp cSig st

/-- `float32_muladd` and `float64_muladd`, on the words of each. -/
def muladd (ops : wide W) (F : float_format) (a b c flags : ℕ) (st : float_status) : ℕ × float_status :=
  let pa := float_squash_input_denormal F a st
  let pb := float_squash_input_denormal F b pa.2
  let pc := float_squash_input_denormal F c pb.2
  muladdSquashed ops F pa.1 pb.1 pc.1 flags pc.2

def float32_muladd (a b c flags : ℕ) (st : float_status) : ℕ × float_status := muladd wide32 .float32 a b c flags st

def float64_muladd (a b c flags : ℕ) (st : float_status) : ℕ × float_status := muladd wide64 .float64 a b c flags st

def float_muladd (F : float_format) (a b c flags : ℕ) (st : float_status) : ℕ × float_status :=
  match F with
  | .float32 => float32_muladd a b c flags st
  | .float64 => float64_muladd a b c flags st

/-! ## What the significands stand for -/

/-- The unit of a significand of twice the width has the exponent of its word less this. -/
def wide_unit (F : float_format) : ℤ := F.width + F.guard + 1 - F.emin

/-- A number as the functions hold it, with its explicit bit below the upper one. -/
structure Explicit (F : float_format) (x : ℚ) (e : ℤ) (n : ℕ) : Prop where
  low : 2 ^ (2 * F.width - 2) ≤ n
  high : n < 2 ^ (2 * F.width - 1)
  even : n % 2 = 0
  exp_low : -2 ^ 13 ≤ e
  exp_high : e < 2 ^ 13
  value_eq : x = n * 2 ^ (e - wide_unit F)

/-- A result is halved when the flag asks for it. -/
def halved (halve : Bool) (x : ℚ) : ℚ := if halve then x / 2 else x

/-- The powers of two around the explicit bit. -/
theorem wide_bounds (F : float_format) : 2 ^ (2 * F.width) = 4 * 2 ^ (2 * F.width - 2) ∧
    2 ^ (2 * F.width - 1) = 2 * 2 ^ (2 * F.width - 2) ∧ 2 ^ (2 * F.width - 2) = 2 * 2 ^ (2 * F.width - 3) := by
  cases F <;> decide

/-- The last step: the upper half is rounded, with the exponent less one. -/
theorem wide_delivered (zSign halve : Bool) {e : ℤ} {Z : ℕ} {Y : ℚ} (hlow : 2 ^ (2 * F.width - 2) ≤ Z)
    (hhigh : Z < 2 ^ (2 * F.width - 1)) (hcell : SameCell (2 ^ 2) Z Y) (he : -2 ^ 14 ≤ e) (he' : e < 2 ^ 14)
    (htiny : st.float_detect_tininess = .float_tininess_before_rounding) :
    Delivered F st zSign (signed zSign (halved halve (Y * 2 ^ (e + 1 - wide_unit F))))
      (roundAndPackFloat F zSign (if halve then e - 1 else e) (jam Z F.width) st) := by
  have hsplit : 2 ^ (2 * F.width - 2) = 2 ^ (F.width - 2) * 2 ^ F.width := by cases F <;> rfl
  have hsplit' : 2 ^ (2 * F.width - 1) = 2 ^ (F.width - 1) * 2 ^ F.width := by cases F <;> rfl
  have hguard : 2 ≤ F.guard := by cases F <;> decide
  rw [hsplit] at hlow
  rw [hsplit'] at hhigh
  have hnorm : Normalized F (jam Z F.width) (Y / 2 ^ F.width) :=
    ⟨le_jam hlow (by cases F <;> rfl), jam_lt hhigh (by cases F <;> rfl), hcell.jam (by omega) (by
      cases F <;> decide)⟩
  have hscale : (2 : ℚ) ^ (e + 1 - wide_unit F) = 2 ^ (e + F.emin) / 2 ^ F.width / 2 ^ F.guard := by
    rw [show e + 1 - wide_unit F = e + F.emin - F.width - F.guard by rw [wide_unit]; ring,
      zpow_sub₀ (by norm_num), zpow_sub₀ (by norm_num), zpow_natCast, zpow_natCast]
  rw [hscale]
  cases halve with
  | false =>
    rw [if_neg Bool.false_ne_true, halved, if_neg Bool.false_ne_true]
    convert roundAndPack_delivered zSign e hnorm (by omega) (by omega) htiny using 2
    field_simp
  | true =>
    rw [if_pos rfl, halved, if_pos rfl]
    convert roundAndPack_delivered zSign (e - 1) hnorm (by omega) (by omega) htiny using 2
    rw [show e - 1 + F.emin = e + F.emin - 1 by ring, zpow_sub_one₀ (by norm_num)]
    field_simp

section significands

variable {ops : wide W} {Fits : W → Prop} {val : W → ℕ} {x y : ℚ} {e : ℤ} {n m d : ℕ}

/-- The product of two operands that are not zero. -/
theorem muladdProduct_spec (h : Exact F ops Fits val) {ea eb : ℤ} {sa sb : ℕ}
    (ha : Unpacked F a ea (sa ||| 2 ^ F.frac_bits)) (hb : Unpacked F b eb (sb ||| 2 ^ F.frac_bits)) :
    Fits (muladdProduct ops F (ea, sa) (eb, sb)).2 ∧
      Explicit F (magnitude F a * magnitude F b) (muladdProduct ops F (ea, sa) (eb, sb)).1
        (val (muladdProduct ops F (ea, sa) (eb, sb)).2) := by
  obtain ⟨hA, hA', hea, hea', hmaga⟩ := ha
  obtain ⟨hB, hB', heb, heb', hmagb⟩ := hb
  obtain ⟨hlow, hhigh⟩ := product_bounds hA hA' hB hB'
  unfold muladdProduct
  dsimp only
  generalize sa ||| 2 ^ F.frac_bits = A at *
  generalize sb ||| 2 ^ F.frac_bits = B at *
  have htop := width_split_top F
  have hwa : A * 2 ^ F.guard < 2 ^ F.width := by
    have := Nat.mul_lt_mul_of_pos_right hA' (show 0 < 2 ^ F.guard by positivity)
    rw [← width_split] at this
    omega
  have hwb : B * 2 ^ (F.guard + 1) < 2 ^ F.width := by
    have := Nat.mul_lt_mul_of_pos_right hB' (show 0 < 2 ^ F.guard by positivity)
    rw [← width_split] at this
    rw [pow_succ, ← mul_assoc]
    omega
  simp only [Nat.shiftLeft_eq, Nat.mod_eq_of_lt hwa, Nat.mod_eq_of_lt hwb]
  obtain ⟨hfits, hval⟩ := h.product hwa hwb
  obtain ⟨hfull, hhalf, hquarter⟩ := wide_bounds F
  have hbias : F.bias < 2 ^ 11 := by cases F <;> decide
  have heven : A * 2 ^ F.guard * (B * 2 ^ (F.guard + 1)) = A * 2 ^ F.guard * (B * 2 ^ F.guard) * 2 := by ring
  have hlow' : 2 ^ (2 * F.width - 3) ≤ A * 2 ^ F.guard * (B * 2 ^ (F.guard + 1)) := by
    rw [show 2 ^ (2 * F.width - 3) = 2 ^ (F.width - 3) * 2 ^ F.width by cases F <;> rfl]
    exact hlow
  have hhigh' : A * 2 ^ F.guard * (B * 2 ^ (F.guard + 1)) < 2 ^ (2 * F.width - 1) := by
    rw [show 2 ^ (2 * F.width - 1) = 2 ^ (F.width - 1) * 2 ^ F.width by cases F <;> rfl]
    exact hhigh
  -- the product in its own unit
  have hvalue : magnitude F a * magnitude F b = (A * 2 ^ F.guard * (B * 2 ^ (F.guard + 1)) : ℕ) *
      2 ^ (ea + eb - (F.bias - 1) - wide_unit F) := by
    have hexp : ea - 1 + F.emin + (eb - 1 + F.emin) =
        ea + eb - (F.bias - 1) - wide_unit F + (F.guard : ℕ) + ((F.guard + 1 : ℕ) : ℤ) := by
      have hw : ((F.frac_bits + F.guard + 2 : ℕ) : ℤ) = F.width := by rw [F.guard_eq]
      rw [wide_unit, float_format.emin]
      push_cast at hw ⊢
      linarith
    calc magnitude F a * magnitude F b
        = A * B * (2 ^ (ea - 1 + F.emin) * 2 ^ (eb - 1 + F.emin)) := by rw [hmaga, hmagb]; ring
      _ = A * B * (2 ^ (ea + eb - (F.bias - 1) - wide_unit F) * 2 ^ F.guard * 2 ^ (F.guard + 1)) := by
          rw [← zpow_add₀ (by norm_num), hexp, zpow_add₀ (by norm_num), zpow_add₀ (by norm_num), zpow_natCast,
            zpow_natCast]
      _ = _ := by push_cast; ring
  rw [← hval] at hlow' hhigh' heven hvalue
  obtain ⟨hdfits, hdval, hbit⟩ := h.double hfits hhigh'
  by_cases hlead : ops.second_bit (ops.product (A * 2 ^ F.guard) (B * 2 ^ (F.guard + 1))) = true
  · rw [if_pos hlead]
    refine ⟨hfits, hbit.mp hlead, hhigh', ?_, by dsimp only; omega, by dsimp only; omega, hvalue⟩
    dsimp only
    rw [heven, Nat.mul_mod_left]
  · -- the explicit bit is one place below
    have hsmall := not_le.mp (mt hbit.mpr hlead)
    rw [if_neg hlead]
    refine ⟨hdfits, ?_, ?_, ?_, by omega, by omega, ?_⟩
    · dsimp only
      omega
    · dsimp only
      omega
    · dsimp only
      omega
    · dsimp only
      rw [hvalue, hdval, show ea + eb - (F.bias - 1) - 1 - wide_unit F = ea + eb - (F.bias - 1) - wide_unit F - 1 by ring,
        zpow_sub_one₀ (by norm_num)]
      push_cast
      field_simp

/-- The addend. -/
theorem addend_spec (h : Exact F ops Fits val) {ec : ℤ} {sc : ℕ} (hc : Unpacked F c ec (sc ||| 2 ^ F.frac_bits)) :
    Fits (ops.addend sc) ∧ Explicit F (magnitude F c) ec (val (ops.addend sc)) := by
  obtain ⟨hC, hC', hec, hec', hmag⟩ := hc
  obtain ⟨hfits, hval⟩ := h.addend (Nat.left_le_or.trans_lt hC')
  have hplaces : F.frac_bits + (2 * F.width - 2 - F.frac_bits) = 2 * F.width - 2 ∧
      F.precision + (2 * F.width - 2 - F.frac_bits) = 2 * F.width - 1 ∧
      1 ≤ 2 * F.width - 2 - F.frac_bits := by cases F <;> decide
  refine ⟨hfits, ?_, ?_, ?_, by omega, by omega, ?_⟩
  · have hmul := Nat.mul_le_mul_right (2 ^ (2 * F.width - 2 - F.frac_bits)) hC
    rw [← pow_add, hplaces.1] at hmul
    rwa [hval]
  · have hmul := Nat.mul_lt_mul_of_pos_right hC' (show 0 < 2 ^ (2 * F.width - 2 - F.frac_bits) by positivity)
    rw [← pow_add, hplaces.2.1] at hmul
    rwa [hval]
  · rw [hval, two_pow_pred hplaces.2.2, ← mul_assoc, Nat.mul_right_comm, Nat.mul_mod_left]
  · have hexp : ec - 1 + F.emin = ec - wide_unit F + ((2 * F.width - 2 - F.frac_bits : ℕ) : ℤ) := by
      have hw : ((F.frac_bits + F.guard + 2 : ℕ) : ℤ) = F.width := by rw [F.guard_eq]
      have hsub : ((2 * F.width - 2 - F.frac_bits : ℕ) : ℤ) = 2 * F.width - 2 - F.frac_bits := by cases F <;> rfl
      rw [wide_unit, hsub]
      push_cast at hw
      linarith
    rw [hval, hmag, hexp, zpow_add₀ (by norm_num), zpow_natCast]
    push_cast
    ring

/-- In the unit of a larger exponent. -/
theorem Explicit.shifted (hy : Explicit F y (e - d) m) : y = m / 2 ^ d * 2 ^ (e - wide_unit F) := by
  rw [hy.value_eq, show e - d - wide_unit F = e - wide_unit F - (d : ℤ) by ring]
  generalize e - wide_unit F = u
  rw [zpow_sub₀ (by norm_num), zpow_natCast]
  field_simp

/-- The first operand has the larger exponent, or the same. -/
theorem aligned_sum (hx : Explicit F x e n) (hy : Explicit F y (e - d) m) :
    2 ^ (2 * F.width - 2) ≤ n + jam m d ∧ n + jam m d < 2 ^ (2 * F.width) ∧
      SameCell 2 ((n + jam m d : ℕ) : ℚ) (n + m / 2 ^ d) ∧ x + y = (n + m / 2 ^ d) * 2 ^ (e - wide_unit F) := by
  obtain ⟨hfull, hhalf, -⟩ := wide_bounds F
  have hjam : jam m d < 2 ^ (2 * F.width - 1) :=
    jam_lt (hy.high.trans_le (Nat.le_mul_of_pos_right _ (by positivity))) (by cases F <;> rfl)
  have hlow := hx.low
  have hhigh := hx.high
  refine ⟨by omega, by omega, ?_, ?_⟩
  · -- an even number is added to what is shifted
    obtain ⟨k, hk⟩ : ∃ k, n = k * 2 := ⟨n / 2, by have := hx.even; omega⟩
    have h := (sameCell_jam m d).add_mul k
    rw [hk]
    push_cast at h ⊢
    exact h
  · rw [hx.value_eq, hy.shifted, add_mul]

/-- The first operand has the larger exponent, and is the larger one. -/
theorem aligned_difference (hx : Explicit F x e n) (hy : Explicit F y (e - d) m) (hd : 1 ≤ d) :
    jam m d < n ∧ y < x ∧ x - y = (n - m / 2 ^ d) * 2 ^ (e - wide_unit F) ∧
      ∀ k, (n - jam m d) * 2 ^ k < 2 ^ (2 * F.width - 1) →
        SameCell (2 ^ 2) (((n - jam m d) * 2 ^ k : ℕ) : ℚ) ((n - m / 2 ^ d) * 2 ^ k) := by
  obtain ⟨hfull, hhalf, hquarter⟩ := wide_bounds F
  have hlow := hx.low
  have hhigh := hy.high
  have htwo : 2 ≤ 2 ^ d := Nat.le_self_pow (by omega) 2
  have hmul := Nat.mul_le_mul_left (2 ^ (2 * F.width - 2)) htwo
  have hjam : jam m d < 2 ^ (2 * F.width - 2) := jam_lt (by omega) (by cases F <;> rfl)
  have hless : (m : ℚ) / 2 ^ d < n := by
    rw [div_lt_iff₀ (by positivity)]
    have : m < n * 2 ^ d := by
      have := Nat.mul_le_mul_right (2 ^ d) hlow
      omega
    exact_mod_cast this
  have hdiff : x - y = (n - m / 2 ^ d) * 2 ^ (e - wide_unit F) := by
    rw [hx.value_eq, hy.shifted, sub_mul]
  refine ⟨by omega, ?_, hdiff, ?_⟩
  · rw [← sub_pos, hdiff]
    exact mul_pos (sub_pos.mpr hless) (by positivity)
  intro k hk
  rcases Nat.lt_or_ge d 2 with hone | hmore
  · -- a shift by one loses nothing
    have hd1 : d = 1 := by omega
    subst hd1
    have hexact : jam m 1 = m / 2 := jam_of_dvd hy.even
    have hcast : ((m / 2 : ℕ) : ℚ) = m / 2 ^ 1 := by
      rw [Nat.cast_div (Nat.dvd_of_mod_eq_zero hy.even) (by norm_num), pow_one, Nat.cast_ofNat]
    rw [hexact] at hjam hk ⊢
    rw [← hcast]
    push_cast [Nat.cast_sub (show m / 2 ≤ n by omega)]
    exact SameCell.refl _ _
  · -- the leading bit moves by one place at most
    have hfour : 4 ≤ 2 ^ d := by
      calc 4 = 2 ^ 2 := rfl
        _ ≤ 2 ^ d := Nat.pow_le_pow_right (by norm_num) hmore
    have hmul' := Nat.mul_le_mul_left (2 ^ (2 * F.width - 3)) hfour
    have hjam' : jam m d ≤ 2 ^ (2 * F.width - 3) := jam_le (by omega) (by cases F <;> rfl)
    have hk1 : k ≤ 1 := by
      by_contra hcon
      have hpow : 4 ≤ 2 ^ k := by
        calc 4 = 2 ^ 2 := rfl
          _ ≤ 2 ^ k := Nat.pow_le_pow_right (by norm_num) (by omega)
      have := Nat.mul_le_mul (show 2 ^ (2 * F.width - 3) ≤ n - jam m d by omega) hpow
      omega
    obtain ⟨j, hj⟩ : ∃ j, n = j * 2 := ⟨n / 2, by have := hx.even; omega⟩
    have hcell : SameCell 2 ((n - jam m d : ℕ) : ℚ) (n - m / 2 ^ d) := by
      have h := (sameCell_jam m d).mul_sub j
      rw [Nat.cast_sub (by omega), hj]
      push_cast at h ⊢
      exact h
    have h := hcell.scale (c := 2 ^ k) (by positivity)
    rw [← pow_succ'] at h
    push_cast
    exact h.pow_le (by omega)

/-- A sum, with a carry or without. -/
theorem finish_sum (h : Exact F ops Fits val) {z : W} {Y : ℚ} (zSign halve : Bool) (hz : Fits z)
    (hlow : 2 ^ (2 * F.width - 2) ≤ val z) (hlt : val z < 2 ^ (2 * F.width)) (hcell : SameCell 2 (val z) Y)
    (he : -2 ^ 13 ≤ e) (he' : e < 2 ^ 13) (htiny : st.float_detect_tininess = .float_tininess_before_rounding) :
    let r := if ops.upper_bit z then (e, ops.rightJamming z 1) else (e - 1, z)
    Delivered F st zSign (signed zSign (halved halve (Y * 2 ^ (e - wide_unit F))))
      (roundAndPackFloat F zSign (if halve then r.1 - 1 else r.1) (ops.upper r.2) st) := by
  obtain ⟨hfull, hhalf, hquarter⟩ := wide_bounds F
  have hcell1 : SameCell (2 ^ 1) (val z : ℚ) Y := by rwa [pow_one]
  intro r
  by_cases hcarry : ops.upper_bit z = true
  · have hr : r = (e, ops.rightJamming z 1) := if_pos hcarry
    have hbig := (h.upper_bit hz).mp hcarry
    obtain ⟨hfits, hval⟩ := h.rightJamming hz 1
    have hjlow : 2 ^ (2 * F.width - 2) ≤ jam (val z) 1 := le_jam (by omega) (by cases F <;> rfl)
    have hjhigh : jam (val z) 1 < 2 ^ (2 * F.width - 1) := jam_lt (by omega) (by cases F <;> rfl)
    have hcell' : SameCell (2 ^ 1) (jam (val z) 1) (Y / 2 ^ 1) := hcell1.jam (le_refl 1) (by norm_num)
    rw [hr]
    dsimp only
    rw [h.upper hfits (by rw [hval]; exact hjhigh), hval]
    have hdone := wide_delivered zSign halve hjlow hjhigh (hcell'.pow_le (by norm_num)) (e := e) (by omega)
      (by omega) htiny
    rwa [show e + 1 - wide_unit F = e - wide_unit F + 1 by ring, zpow_add_one₀ (by norm_num), pow_one,
      div_mul_eq_mul_div, ← mul_assoc, mul_div_assoc, div_self (by norm_num), mul_one] at hdone
  · have hr : r = (e - 1, z) := if_neg hcarry
    have hsmall := not_le.mp (mt (h.upper_bit hz).mpr hcarry)
    have hcell' : SameCell (2 ^ 2) (val z : ℚ) Y := hcell1.pow_le (by norm_num)
    rw [hr]
    dsimp only
    rw [h.upper hz hsmall]
    have hdone := wide_delivered zSign halve hlow hsmall hcell' (e := e - 1) (by omega) (by omega) htiny
    rwa [show e - 1 + 1 - wide_unit F = e - wide_unit F by ring] at hdone

/-- A difference, after its leading zeros are shifted out. -/
theorem finish_difference (h : Exact F ops Fits val) {z : W} {Y : ℚ} (zSign halve : Bool) (hz : Fits z)
    (hne : val z ≠ 0) (hlt : val z < 2 ^ (2 * F.width - 1))
    (hcell : ∀ k, val z * 2 ^ k < 2 ^ (2 * F.width - 1) → SameCell (2 ^ 2) ((val z * 2 ^ k : ℕ) : ℚ) (Y * 2 ^ k))
    (he : -2 ^ 13 ≤ e) (he' : e < 2 ^ 13) (htiny : st.float_detect_tininess = .float_tininess_before_rounding) :
    let n := ops.normalized z
    Delivered F st zSign (signed zSign (halved halve (Y * 2 ^ (e - wide_unit F))))
      (roundAndPackFloat F zSign (if halve then e - 1 - n.1 - 1 else e - 1 - n.1) n.2 st) := by
  intro r
  obtain ⟨k, hlow, hhigh, hr⟩ := h.normalized hz hne hlt
  have hk : k < 128 := by
    have hpow : 2 ^ k ≤ val z * 2 ^ k := Nat.le_mul_of_pos_left _ (Nat.pos_of_ne_zero hne)
    have hexp : k < 2 * F.width - 1 := (Nat.pow_lt_pow_iff_right (by norm_num)).mp (hpow.trans_lt hhigh)
    have hw : F.width ≤ 64 := by cases F <;> decide
    omega
  have hr' : r = ((k : ℤ), jam (val z * 2 ^ k) F.width) := hr
  rw [hr']
  dsimp only
  have hdone := wide_delivered zSign halve hlow hhigh (hcell k hhigh) (e := e - 1 - k) (by omega) (by omega)
    htiny
  have hscale : Y * 2 ^ k * 2 ^ (e - 1 - k + 1 - wide_unit F) = Y * 2 ^ (e - wide_unit F) := by
    rw [show e - 1 - (k : ℤ) + 1 - wide_unit F = e - wide_unit F - (k : ℤ) by ring, zpow_sub₀ (by norm_num), zpow_natCast]
    field_simp
  rwa [hscale] at hdone

end significands

/-! ## Finite operands -/

theorem signed_signed (s t : Bool) (x : ℚ) : signed s (signed t x) = signed (t ^^ s) x := by
  cases s <;> cases t <;> simp [signed]

theorem signed_halved (s halve : Bool) (x : ℚ) : halved halve (signed s x) = signed s (halved halve x) := by
  cases s <;> cases halve <;> simp [signed, halved, neg_div]

theorem halved_zero (halve : Bool) : halved halve 0 = 0 := by cases halve <;> simp [halved]

/-- The sign of a sum is the one of its larger part. -/
theorem sum_sign_of_pos {s t : Bool} {x : ℚ} (hx : 0 < x) : sum_sign st s t (signed s x) = s := by
  rw [sum_sign, if_neg fun hc => hx.ne' (signed_eq_zero.mp hc)]
  cases s
  · simp only [signed, Bool.false_eq_true, if_false, decide_eq_false_iff_not, not_lt]
    exact hx.le
  · simp only [signed, if_true, decide_eq_true_eq, neg_lt_zero]
    exact hx

section finite

variable {ops : wide W} {Fits : W → Prop} {val : W → ℕ} {x y : ℚ} {p q : ℤ × W}

theorem muladdAdd_delivered (h : Exact F ops Fits val) (zSign halve : Bool) (hp : Fits p.2) (hq : Fits q.2)
    (hx : Explicit F x p.1 (val p.2)) (hy : Explicit F y q.1 (val q.2))
    (htiny : st.float_detect_tininess = .float_tininess_before_rounding) :
    Delivered F st zSign (signed zSign (halved halve (x + y)))
      (roundAndPackFloat F zSign (if halve then (muladdAdd ops p q).1 - 1 else (muladdAdd ops p q).1)
        (ops.upper (muladdAdd ops p q).2) st) := by
  unfold muladdAdd
  dsimp only
  rcases lt_trichotomy (p.1 - q.1) 0 with hneg | hzero | hpos
  · -- the product is shifted
    obtain ⟨d, hd⟩ : ∃ d : ℕ, -(p.1 - q.1) = d := ⟨(-(p.1 - q.1)).toNat, by omega⟩
    rw [if_neg (not_lt.mpr hneg.le), if_pos hneg, if_neg (not_lt.mpr hneg.le), hd, Int.toNat_natCast]
    have hx' : Explicit F x (q.1 - d) (val p.2) := by rwa [show q.1 - (d : ℤ) = p.1 by omega]
    obtain ⟨hlow, hlt, hcell, hsum⟩ := aligned_sum hy hx'
    obtain ⟨hfits, hval⟩ := h.rightJamming hp d
    obtain ⟨hadd, hvalue⟩ := h.add hfits hq (by rw [hval, Nat.add_comm]; exact hlt)
    rw [hval, Nat.add_comm] at hvalue
    rw [← hvalue] at hlow hlt hcell
    rw [add_comm x y, hsum]
    exact finish_sum h zSign halve hadd hlow hlt hcell hy.exp_low hy.exp_high htiny
  · have hx' : Explicit F x (q.1 - (0 : ℕ)) (val p.2) := by rwa [show q.1 - ((0 : ℕ) : ℤ) = p.1 by push_cast; omega]
    obtain ⟨hlow, hlt, hcell, hsum⟩ := aligned_sum hy hx'
    have hsame : jam (val p.2) 0 = val p.2 := by rw [jam_of_dvd (Nat.mod_one _), pow_zero, Nat.div_one]
    rw [hsame] at hlow hlt hcell
    obtain ⟨hadd, hvalue⟩ := h.add hp hq (by rw [Nat.add_comm]; exact hlt)
    rw [Nat.add_comm] at hvalue
    rw [← hvalue] at hlow hlt hcell
    rw [if_neg hzero.not_gt, if_neg hzero.not_lt, if_neg hzero.not_gt, add_comm x y, hsum]
    exact finish_sum h zSign halve hadd hlow hlt hcell hy.exp_low hy.exp_high htiny
  · -- the addend is shifted
    obtain ⟨d, hd⟩ : ∃ d : ℕ, p.1 - q.1 = d := ⟨(p.1 - q.1).toNat, by omega⟩
    rw [if_pos hpos, if_neg (not_lt.mpr hpos.le), if_pos hpos, hd, Int.toNat_natCast]
    have hy' : Explicit F y (p.1 - d) (val q.2) := by rwa [show p.1 - (d : ℤ) = q.1 by omega]
    obtain ⟨hlow, hlt, hcell, hsum⟩ := aligned_sum hx hy'
    obtain ⟨hfits, hval⟩ := h.rightJamming hq d
    obtain ⟨hadd, hvalue⟩ := h.add hp hfits (by rw [hval]; exact hlt)
    rw [hval] at hvalue
    rw [← hvalue] at hlow hlt hcell
    rw [hsum]
    exact finish_sum h zSign halve hadd hlow hlt hcell hx.exp_low hx.exp_high htiny

/-- The larger operand less the smaller one, when their exponents differ. -/
theorem shifted_difference (h : Exact F ops Fits val) (zSign halve : Bool) {d : ℕ} (hd : 1 ≤ d) (hp : Fits p.2)
    (hq : Fits q.2) (hx : Explicit F x p.1 (val p.2)) (hy : Explicit F y (p.1 - d) (val q.2))
    (htiny : st.float_detect_tininess = .float_tininess_before_rounding) :
    let n := ops.normalized (ops.sub p.2 (ops.rightJamming q.2 d))
    y < x ∧ Delivered F st zSign (signed zSign (halved halve (x - y)))
      (roundAndPackFloat F zSign (if halve then p.1 - 1 - n.1 - 1 else p.1 - 1 - n.1) n.2 st) := by
  intro n
  obtain ⟨hless, hmag, hdiff, hcell⟩ := aligned_difference hx hy hd
  obtain ⟨hfits, hval⟩ := h.rightJamming hq d
  obtain ⟨hsub, hvalue⟩ := h.sub hp hfits (by rw [hval]; exact hless.le)
  rw [hval] at hvalue
  have hhigh := hx.high
  rw [← hvalue] at hcell
  rw [hdiff]
  exact ⟨hmag, finish_difference h zSign halve hsub (by omega) (by omega) hcell hx.exp_low hx.exp_high htiny⟩

/-- The same when they do not. -/
theorem plain_difference (h : Exact F ops Fits val) (zSign halve : Bool) (hp : Fits p.2) (hq : Fits q.2)
    (hx : Explicit F x p.1 (val p.2)) (hy : Explicit F y p.1 (val q.2)) (hlt : val q.2 < val p.2)
    (htiny : st.float_detect_tininess = .float_tininess_before_rounding) :
    let n := ops.normalized (ops.sub p.2 q.2)
    y < x ∧ Delivered F st zSign (signed zSign (halved halve (x - y)))
      (roundAndPackFloat F zSign (if halve then p.1 - 1 - n.1 - 1 else p.1 - 1 - n.1) n.2 st) := by
  intro n
  obtain ⟨hsub, hvalue⟩ := h.sub hp hq hlt.le
  have hdiff : x - y = (val (ops.sub p.2 q.2) : ℚ) * 2 ^ (p.1 - wide_unit F) := by
    rw [hvalue, Nat.cast_sub hlt.le, hx.value_eq, hy.value_eq, sub_mul]
  have hhigh := hx.high
  have hne : val (ops.sub p.2 q.2) ≠ 0 := by omega
  refine ⟨?_, ?_⟩
  · rw [← sub_pos, hdiff]
    exact mul_pos (by exact_mod_cast Nat.pos_of_ne_zero hne) (by positivity)
  · rw [hdiff]
    apply finish_difference h zSign halve hsub hne (by omega) ?_ hx.exp_low hx.exp_high htiny
    intro k _
    push_cast
    exact SameCell.refl _ _

/-- The difference has the sign of the larger magnitude; an exact zero is positive, unless the mode rounds down. -/
theorem muladdAligned_delivered (h : Exact F ops Fits val) (pSign cSign signflip halve : Bool) (hp : Fits p.2)
    (hq : Fits q.2) (hx : Explicit F x p.1 (val p.2)) (hy : Explicit F y q.1 (val q.2)) (hx0 : 0 ≤ x) (hy0 : 0 ≤ y)
    (htiny : st.float_detect_tininess = .float_tininess_before_rounding) :
    Delivered F st (sum_sign st pSign cSign (signed pSign x + signed cSign y) ^^ signflip)
      (signed signflip (halved halve (signed pSign x + signed cSign y)))
      (muladdAligned ops F pSign cSign signflip halve p q st) := by
  unfold muladdAligned
  by_cases hsame : pSign = cSign
  · rw [if_pos hsame, ← hsame, ← signed_add, sum_sign_same hx0 hy0, signed_halved, signed_signed]
    exact muladdAdd_delivered h _ halve hp hq hx hy htiny
  rw [if_neg hsame, sign_cases hsame, signed_not, signed_neg, ← sub_eq_add_neg, ← signed_sub, sum_sign_different,
    signed_halved, signed_signed]
  -- the smaller one is taken from the larger one
  have hswap : signed (pSign ^^ signflip) (halved halve (x - y)) =
      signed (pSign ^^ signflip ^^ true) (halved halve (y - x)) := by
    cases pSign <;> cases signflip <;> cases halve <;> simp only [signed, halved] <;> norm_num <;> ring
  have hsecond : x < y → (difference_sign st pSign x y ^^ signflip) = (pSign ^^ signflip ^^ true) := by
    intro hlt
    rw [difference_sign, if_neg hlt.ne, if_neg hlt.not_gt]
    cases pSign <;> cases signflip <;> rfl
  have hfirst : y < x → (difference_sign st pSign x y ^^ signflip) = (pSign ^^ signflip) := by
    intro hlt
    rw [difference_sign, if_neg hlt.ne', if_pos hlt]
  unfold muladdSub
  dsimp only
  rcases lt_trichotomy (p.1 - q.1) 0 with hneg | hzero | hpos
  · obtain ⟨d, hd⟩ : ∃ d : ℕ, -(p.1 - q.1) = d := ⟨(-(p.1 - q.1)).toNat, by omega⟩
    have hx' : Explicit F x (q.1 - d) (val p.2) := by rwa [show q.1 - (d : ℤ) = p.1 by omega]
    obtain ⟨hlt, hdone⟩ := shifted_difference h (pSign ^^ signflip ^^ true) halve (by omega) hq hp hy hx' htiny
    rw [if_neg (not_lt.mpr hneg.le), if_pos hneg, hd, Int.toNat_natCast, hsecond hlt, hswap]
    exact hdone
  · have hy' : Explicit F y p.1 (val q.2) := by rwa [show p.1 = q.1 by omega]
    have hx' : Explicit F x q.1 (val p.2) := by rwa [show q.1 = p.1 by omega]
    rw [if_neg hzero.not_gt, if_neg hzero.not_lt]
    rcases Nat.lt_trichotomy (val q.2) (val p.2) with hlt | heq | hgt
    · obtain ⟨hmag, hdone⟩ := plain_difference h (pSign ^^ signflip) halve hp hq hx hy' hlt htiny
      rw [if_pos ((h.lt hq hp).mpr hlt), hfirst hmag]
      dsimp only
      rw [Bool.xor_false]
      exact hdone
    · -- nothing is left
      have hxy : x = y := by rw [hx.value_eq, hy'.value_eq, heq]
      rw [if_neg (by rw [h.lt hq hp]; omega), if_neg (by rw [h.lt hp hq]; omega), hxy, sub_self, halved_zero,
        signed_zero, difference_sign, if_pos rfl, Bool.xor_comm]
      exact delivered_zero _ _
    · obtain ⟨hmag, hdone⟩ := plain_difference h (pSign ^^ signflip ^^ true) halve hq hp hy hx' hgt htiny
      rw [if_neg (by rw [h.lt hq hp]; omega), if_pos ((h.lt hp hq).mpr hgt), hsecond hmag, hswap]
      rw [show p.1 = q.1 by omega]
      exact hdone
  · obtain ⟨d, hd⟩ : ∃ d : ℕ, p.1 - q.1 = d := ⟨(p.1 - q.1).toNat, by omega⟩
    have hy' : Explicit F y (p.1 - d) (val q.2) := by rwa [show p.1 - (d : ℤ) = q.1 by omega]
    obtain ⟨hlt, hdone⟩ := shifted_difference h (pSign ^^ signflip) halve (by omega) hp hq hx hy' htiny
    rw [if_pos hpos, hd, Int.toNat_natCast, hfirst hlt]
    dsimp only
    rw [Bool.xor_false]
    exact hdone

theorem muladdFinite_delivered (h : Exact F ops Fits val) (pSign cSign signflip halve : Bool) {ea eb : ℤ} {sa sb : ℕ}
    (ha : Unpacked F a ea (sa ||| 2 ^ F.frac_bits)) (hb : Unpacked F b eb (sb ||| 2 ^ F.frac_bits)) (hc : Finite F c)
    (hpos : 0 < magnitude F a * magnitude F b) (htiny : st.float_detect_tininess = .float_tininess_before_rounding) :
    let x := signed pSign (magnitude F a * magnitude F b) + signed cSign (magnitude F c)
    Delivered F st (sum_sign st pSign cSign x ^^ signflip) (signed signflip (halved halve x))
      (muladdFinite ops F pSign cSign signflip halve (ea, sa) (eb, sb) (extractFloatExp F c) (extractFloatFrac F c) st) := by
  intro x
  obtain ⟨hfits, hprod⟩ := muladdProduct_spec h ha hb
  unfold muladdFinite
  dsimp only
  by_cases hzero : extractFloatExp F c = 0 ∧ extractFloatFrac F c = 0
  · -- the product alone
    have hx : x = signed pSign (magnitude F a * magnitude F b) := by
      show signed pSign _ + signed cSign _ = _
      rw [magnitude_zero hzero, signed_zero, add_zero]
    rw [if_pos hzero, hx, sum_sign_of_pos hpos, signed_halved, signed_signed, h.upper hfits hprod.high]
    generalize muladdProduct ops F (ea, sa) (eb, sb) = p at *
    have hlow := hprod.exp_low
    have hhigh := hprod.exp_high
    have hdone := wide_delivered (pSign ^^ signflip) halve hprod.low hprod.high (SameCell.refl _ _) (e := p.1 - 1)
      (by omega) (by omega) htiny
    rw [show p.1 - 1 + 1 - wide_unit F = p.1 - wide_unit F by ring, ← hprod.value_eq] at hdone
    rwa [show (if halve then p.1 - 1 else p.1) - 1 = if halve then p.1 - 1 - 1 else p.1 - 1 by split_ifs <;> rfl]
  · rw [if_neg hzero]
    obtain ⟨hcfits, haddend⟩ := addend_spec h (unpacked_spec hc hzero)
    exact muladdAligned_delivered h pSign cSign signflip halve hfits hcfits hprod haddend hpos.le magnitude_nonneg htiny

end finite

/-- Subnormal numbers are below the normal ones. -/
theorem magnitude_lt_min (h : extractFloatExp F c = 0) : magnitude F c < min_normal F := by
  rw [magnitude, significand, scale, if_pos h, if_pos h, Nat.add_zero, zero_add, min_normal]
  apply mul_lt_mul_of_pos_right _ (by positivity)
  exact_mod_cast frac_lt (F := F) (a := c)

theorem min_le_magnitude (h : extractFloatExp F c ≠ 0) : min_normal F ≤ magnitude F c := by
  have hsig : ((2 ^ F.frac_bits : ℕ) : ℚ) ≤ significand F c := by exact_mod_cast significand_lead h
  rw [magnitude, scale, if_neg h, min_normal]
  have hscale : (2 : ℚ) ^ F.emin ≤ 2 ^ ((extractFloatExp F c : ℤ) - 1 + F.emin) :=
    zpow_le_zpow_right₀ (by norm_num) (by omega)
  push_cast at hsig
  exact mul_le_mul hsig hscale (by positivity) (by positivity)

theorem halved_le (halve : Bool) {x : ℚ} (hx : 0 ≤ x) : halved halve x ≤ x := by
  unfold halved
  split_ifs <;> linarith

/-- A word that is unpacked and packed again, with another sign. -/
theorem repacked (zSign : Bool) (hc : Finite F c) :
    Finite F (packFloat F zSign (extractFloatExp F c) (extractFloatFrac F c)) ∧
      extractFloatSign F (packFloat F zSign (extractFloatExp F c) (extractFloatFrac F c)) = zSign ∧
      value F (packFloat F zSign (extractFloatExp F c) (extractFloatFrac F c)) = signed zSign (magnitude F c) := by
  have hfrac := frac_lt (F := F) (a := c)
  have hroom : (extractFloatExp F c - 1) * 2 ^ F.frac_bits + significand F c < F.exp_max * 2 ^ F.frac_bits := by
    have hle := exp_le (F := F) (a := c)
    have hne := hc.2
    have hmul : (extractFloatExp F c + 1) * 2 ^ F.frac_bits ≤ F.exp_max * 2 ^ F.frac_bits :=
      Nat.mul_le_mul_right _ (by omega)
    rw [significand]
    split_ifs with h0
    · rw [h0, Nat.zero_sub, Nat.zero_mul]
      rw [h0] at hmul
      omega
    · obtain ⟨k, hk⟩ := Nat.exists_eq_succ_of_ne_zero h0
      rw [hk] at hmul ⊢
      rw [Nat.succ_sub_one]
      rw [Nat.succ_mul, Nat.succ_mul] at hmul
      omega
  have hlead : 2 ^ F.frac_bits ≤ significand F c ∨ extractFloatExp F c - 1 = 0 := by
    by_cases h0 : extractFloatExp F c = 0
    · exact Or.inr (by omega)
    · exact Or.inl (significand_lead h0)
  obtain ⟨hfinite, hsgn, hvalue⟩ := pack_spec zSign hlead significand_lt.le hroom
  have hpack : packFloat F zSign (extractFloatExp F c) (extractFloatFrac F c) =
      packFloat F zSign (extractFloatExp F c - 1 : ℕ) (significand F c) := by
    unfold packFloat
    rw [significand]
    split_ifs with h0
    · rw [h0]
      rfl
    · obtain ⟨k, hk⟩ := Nat.exists_eq_succ_of_ne_zero h0
      rw [hk, Nat.succ_sub_one]
      push_cast
      congr 2
      ring
  have hmag : ((significand F c : ℚ)) * 2 ^ (((extractFloatExp F c - 1 : ℕ) : ℤ) + F.emin) = magnitude F c := by
    rw [magnitude, scale]
    split_ifs with h0
    · rw [h0]
      simp
    · congr 2
      omega
  rw [hmag] at hvalue
  rw [hpack]
  exact ⟨hfinite, hsgn, hvalue⟩

/-- The half of a word is rounded like any other number. -/
theorem half_delivered (zSign : Bool) (hc : Finite F c)
    (hzero : ¬ (extractFloatExp F c = 0 ∧ extractFloatFrac F c = 0))
    (htiny : st.float_detect_tininess = .float_tininess_before_rounding) :
    let u := unpacked F (extractFloatExp F c) (extractFloatFrac F c)
    Delivered F st zSign (signed zSign (magnitude F c / 2))
      (roundAndPackFloat F zSign (u.1 - 2) (((u.2 ||| 2 ^ F.frac_bits) <<< F.guard) % 2 ^ F.width) st) := by
  dsimp only
  obtain ⟨hlow, hhigh, hexp, hexp', hmag⟩ := unpacked_spec hc hzero
  generalize unpacked F (extractFloatExp F c) (extractFloatFrac F c) = u at *
  generalize u.2 ||| 2 ^ F.frac_bits = s at *
  have hword : s * 2 ^ F.guard < 2 ^ (F.width - 1) := by
    rw [width_split]
    exact Nat.mul_lt_mul_of_pos_right hhigh (by positivity)
  have hword' : 2 ^ (F.width - 2) ≤ s * 2 ^ F.guard := by
    rw [width_split']
    exact Nat.mul_le_mul_right _ hlow
  have hnorm : Normalized F (s * 2 ^ F.guard) ((s * 2 ^ F.guard : ℕ) : ℚ) := ⟨hword', hword, SameCell.refl _ _⟩
  have htop := width_split_top F
  rw [Nat.shiftLeft_eq, Nat.mod_eq_of_lt (by omega)]
  convert roundAndPack_delivered zSign (u.1 - 2) hnorm (by omega) (by omega) htiny using 2
  rw [hmag, show u.1 - 2 + F.emin = u.1 - 1 + F.emin - 1 by ring, zpow_sub_one₀ (by norm_num)]
  push_cast
  field_simp

/-- A product that is zero: what is left is the addend. -/
theorem muladdZero_delivered (pSign cSign signflip halve : Bool) (hc : Finite F c)
    (htiny : st.float_detect_tininess = .float_tininess_before_rounding) :
    let x := signed cSign (magnitude F c)
    Delivered F st (sum_sign st pSign cSign x ^^ signflip) (signed signflip (halved halve x))
      (muladdZero F pSign cSign signflip halve (extractFloatExp F c) (extractFloatFrac F c) st) := by
  intro x
  unfold muladdZero
  dsimp only
  by_cases hzero : extractFloatExp F c = 0 ∧ extractFloatFrac F c = 0
  · have hx : x = 0 := by
      show signed cSign _ = 0
      rw [magnitude_zero hzero, signed_zero]
    rw [if_pos hzero, hx, halved_zero, signed_zero, sum_sign, if_pos rfl]
    exact delivered_zero _ _
  have hpos := magnitude_pos hzero
  have hsign : sum_sign st pSign cSign x = cSign := by
    have hne : x ≠ 0 := fun hc => hpos.ne' (signed_eq_zero.mp hc)
    have hlt := @sum_sign_of_pos st cSign cSign _ hpos
    rw [sum_sign, if_neg hne] at hlt ⊢
    exact hlt
  have hhalf : 0 < halved halve (magnitude F c) := by
    unfold halved
    split_ifs <;> linarith
  rw [if_neg hzero, hsign, signed_halved, signed_signed]
  by_cases hflush : extractFloatExp F c = 0 ∧ st.flush_to_zero = true
  · rw [if_pos hflush]
    apply delivered_flushed hflush.2
    · exact fun hc => hhalf.ne' (signed_eq_zero.mp hc)
    · rw [abs_signed, abs_of_pos hhalf]
      exact (halved_le halve hpos.le).trans_lt (magnitude_lt_min hflush.1)
  rw [if_neg hflush]
  cases halve with
  | true =>
    rw [if_pos rfl, halved, if_pos rfl]
    exact half_delivered (cSign ^^ signflip) hc hzero htiny
  | false =>
    rw [if_neg Bool.false_ne_true, halved, if_neg Bool.false_ne_true]
    -- the word as it is, with its sign
    obtain ⟨hfinite, hsgn, hvalue⟩ := repacked (cSign ^^ signflip) hc
    have hdone := delivered_exact st hfinite (by
      intro hbad
      rw [hvalue, abs_signed, abs_of_pos hpos] at hbad
      refine absurd hbad.2.2 (not_lt.mpr (min_le_magnitude fun h0 => hflush ⟨h0, hbad.1⟩)))
    rwa [hsgn, hvalue] at hdone

/-! ## All words -/

/-- The NaN that is delivered: the addend is the first operand. -/
def fused_nan_operand (F : float_format) (a b c : ℕ) : ℕ :=
  if float_is_signaling_nan F c then c
  else if float_is_signaling_nan F a then a
  else if float_is_signaling_nan F b then b
  else if float_is_quiet_nan F c then c
  else if float_is_quiet_nan F a then a
  else b

/-- What is delivered when an operand is a NaN. An infinity times a zero is invalid even if a quiet NaN is added. -/
def fused_nan (F : float_format) (a b c : ℕ) (st : float_status) : ℕ × float_status :=
  (if st.default_nan_mode = true ∨ infzero F a b = true ∧ float_is_quiet_nan F c = true then float_default_nan F
    else quieted F (fused_nan_operand F a b c),
    float_raise (if float_is_signaling_nan F a = true ∨ float_is_signaling_nan F b = true ∨
        float_is_signaling_nan F c = true ∨ infzero F a b = true ∧ float_is_quiet_nan F c = true then
      float_flag_invalid else 0#8) st)

theorem propagateFloatMulAddNaN_spec (ha : a < 2 ^ F.width) (hb : b < 2 ^ F.width) (hc : c < 2 ^ F.width)
    (hnan : float_is_any_nan F a = true ∨ float_is_any_nan F b = true ∨ float_is_any_nan F c = true)
    (st : float_status) : propagateFloatMulAddNaN F a b c (infzero F a b) st = fused_nan F a b c st := by
  obtain ⟨hacases, haboth⟩ := any_nan_cases ha
  obtain ⟨hbcases, hbboth⟩ := any_nan_cases hb
  obtain ⟨hccases, hcboth⟩ := any_nan_cases hc
  have hasilence := silence_eq ha
  have hbsilence := silence_eq hb
  have hcsilence := silence_eq hc
  have htwice : float_raise float_flag_invalid (float_raise float_flag_invalid st) = float_raise float_flag_invalid st := by
    rw [raise_raise]
    rfl
  unfold propagateFloatMulAddNaN fused_nan fused_nan_operand pickNaNMulAdd
  generalize float_maybe_silence_nan F a = sa at *
  generalize float_maybe_silence_nan F b = sb at *
  generalize float_maybe_silence_nan F c = sc at *
  generalize float_is_signaling_nan F a = as at *
  generalize float_is_signaling_nan F b = bs at *
  generalize float_is_signaling_nan F c = cs at *
  generalize float_is_quiet_nan F a = aq at *
  generalize float_is_quiet_nan F b = bq at *
  generalize float_is_quiet_nan F c = cq at *
  generalize infzero F a b = z at *
  have hmode : ∀ flags, (float_raise flags st).default_nan_mode = st.default_nan_mode := fun _ => rfl
  cases hd : st.default_nan_mode <;> cases cs <;> cases cq <;> cases as <;> cases bs <;> cases z <;>
    simp_all <;> cases aq <;> simp_all

/-- A result that is negated or halved. -/
def Outcome.finish (signflip halve : Bool) : Outcome → Outcome
  | .nan => .nan
  | .invalid => .invalid
  | .infinity s flags => .infinity (s ^^ signflip) flags
  | .number s x => .number (s ^^ signflip) (signed signflip (halved halve x))

def Datum.negated (negate : Bool) (d : Datum) : Datum := if negate then d.neg else d

/-- What the function yields before it is rounded: the product, exactly, and the addend to it. -/
def fused_outcome (st : float_status) (flags : ℕ) (d e f : Datum) : Outcome :=
  let sum (p : Datum) := (sum_outcome st (p.negated (has_flag flags float_muladd_negate_product))
    (f.negated (has_flag flags float_muladd_negate_c))).finish (has_flag flags float_muladd_negate_result)
      (has_flag flags float_muladd_halve_result)
  match product_outcome d e with
  | .nan => .nan
  | .invalid => if f = .nan then .nan else .invalid
  | .infinity s _ => sum (.infinity s)
  | .number s x => sum (.number s x)

/-- `Outcome.Met` for three operands. -/
def Outcome.FusedMet (F : float_format) (st : float_status) (a b c : ℕ) (z : ℕ × float_status) : Outcome → Prop
  | .nan => z = fused_nan F a b c st
  | .invalid => z = (float_default_nan F, float_raise float_flag_invalid st)
  | .infinity s flags => z = (packFloat F s F.exp_max 0, float_raise flags st)
  | .number s x => Delivered F st s x z

theorem fused_outcome_nan {flags : ℕ} {d e f : Datum} (h : d = .nan ∨ e = .nan ∨ f = .nan) :
    fused_outcome st flags d e f = .nan := by
  have hneg : ∀ negate, Datum.negated negate .nan = .nan := fun negate => by cases negate <;> rfl
  unfold fused_outcome
  rcases h with rfl | rfl | rfl
  · rfl
  · rw [product_outcome_nan]
  · dsimp only
    rw [hneg]
    cases product_outcome d e with
    | nan => rfl
    | invalid => rfl
    | infinity s flags =>
      dsimp only
      rw [sum_outcome_nan]
      rfl
    | number s x =>
      dsimp only
      rw [sum_outcome_nan]
      rfl

theorem negated_infinity (negate s : Bool) : Datum.negated negate (.infinity s) = .infinity (s ^^ negate) := by
  cases negate <;> cases s <;> rfl

theorem negated_number (negate s : Bool) (x : ℚ) :
    Datum.negated negate (.number s x) = .number (s ^^ negate) (signed negate x) := by
  cases negate <;> cases s <;> simp [Datum.negated, Datum.neg, signed]

section words

variable {ops : wide W} {Fits : W → Prop} {val : W → ℕ} {flags : ℕ}

/-- The first test of the function. -/
theorem nan_test (F : float_format) (a b c : ℕ) :
    (extractFloatExp F a = F.exp_max ∧ extractFloatFrac F a ≠ 0 ∨
      extractFloatExp F b = F.exp_max ∧ extractFloatFrac F b ≠ 0 ∨
      extractFloatExp F c = F.exp_max ∧ extractFloatFrac F c ≠ 0) ↔ IsNaN F a ∨ IsNaN F b ∨ IsNaN F c := Iff.rfl

/-- A product that is infinite. -/
theorem muladd_infinite (hnot : ¬ (IsNaN F a ∨ IsNaN F b ∨ IsNaN F c)) (hzero : infzero F a b = false)
    (hinf : extractFloatExp F a = F.exp_max ∨ extractFloatExp F b = F.exp_max) (hc : c < 2 ^ F.width) :
    ((sum_outcome st (.infinity (extractFloatSign F a ^^ extractFloatSign F b ^^
          has_flag flags float_muladd_negate_product))
        ((datum F c).negated (has_flag flags float_muladd_negate_c))).finish
      (has_flag flags float_muladd_negate_result) (has_flag flags float_muladd_halve_result)).FusedMet F st a b c
      (muladdSquashed ops F a b c flags st) := by
  unfold muladdSquashed
  dsimp only
  rw [if_neg (mt (nan_test F a b c).mp hnot), hzero, if_neg Bool.false_ne_true]
  generalize (extractFloatSign F a ^^ extractFloatSign F b ^^ has_flag flags float_muladd_negate_product) = s
  by_cases hmax : extractFloatExp F c = F.exp_max
  · -- another infinity
    have hic : IsInfinity F c := by
      refine ⟨hmax, ?_⟩
      by_contra hne
      exact hnot (Or.inr (Or.inr ⟨hmax, hne⟩))
    rw [if_pos hmax, hic.datum, negated_infinity, sum_outcome]
    generalize (extractFloatSign F c ^^ has_flag flags float_muladd_negate_c) = t
    by_cases hst : s = t
    · rw [if_pos hst, if_neg (by rw [hst, Bool.xor_self]; simp), Outcome.finish, Outcome.FusedMet, raise_zero, hst]
    · rw [if_neg hst, if_pos ⟨hinf, by rw [sign_cases hst, Bool.xor_not_self]⟩]
      rfl
  · have hfc : Finite F c := ⟨hc, hmax⟩
    rw [if_neg hmax, if_pos hinf, hfc.datum, negated_number, sum_outcome, Outcome.finish, Outcome.FusedMet, raise_zero]

/-- Finite factors. -/
theorem muladd_number (h : Exact F ops Fits val) (ha : Finite F a) (hb : Finite F b) (hc : c < 2 ^ F.width)
    (hnot : ¬ IsNaN F c) (htiny : st.float_detect_tininess = .float_tininess_before_rounding) :
    ((sum_outcome st ((Datum.number (extractFloatSign F a ^^ extractFloatSign F b) (value F a * value F b)).negated
          (has_flag flags float_muladd_negate_product))
        ((datum F c).negated (has_flag flags float_muladd_negate_c))).finish
      (has_flag flags float_muladd_negate_result) (has_flag flags float_muladd_halve_result)).FusedMet F st a b c
      (muladdSquashed ops F a b c flags st) := by
  have hnan : ¬ (IsNaN F a ∨ IsNaN F b ∨ IsNaN F c) := by
    rintro (hna | hnb | hnc)
    · exact ha.2 hna.1
    · exact hb.2 hnb.1
    · exact hnot hnc
  have hzero : infzero F a b = false := by
    rw [infzero, decide_eq_false_iff_not]
    rintro (hz | hz)
    · exact hb.2 hz.2.2.1
    · exact ha.2 hz.1
  have hinf : ¬ (extractFloatExp F a = F.exp_max ∨ extractFloatExp F b = F.exp_max) := not_or.mpr ⟨ha.2, hb.2⟩
  unfold muladdSquashed
  dsimp only
  rw [if_neg (mt (nan_test F a b c).mp hnan), hzero, if_neg Bool.false_ne_true, negated_number, value, value, signed_mul, signed_signed]
  generalize has_flag flags float_muladd_negate_product = np
  generalize (extractFloatSign F a ^^ extractFloatSign F b ^^ np) = s
  by_cases hmax : extractFloatExp F c = F.exp_max
  · have hic : IsInfinity F c := by
      refine ⟨hmax, ?_⟩
      by_contra hne
      exact hnot ⟨hmax, hne⟩
    rw [if_pos hmax, if_neg fun hbad => hinf hbad.1, hic.datum, negated_infinity, sum_outcome, Outcome.finish,
      Outcome.FusedMet, raise_zero]
  have hfc : Finite F c := ⟨hc, hmax⟩
  rw [if_neg hmax, if_neg hinf, hfc.datum, negated_number, value, signed_signed, sum_outcome, Outcome.finish,
    Outcome.FusedMet]
  generalize (extractFloatSign F c ^^ has_flag flags float_muladd_negate_c) = t
  simp only [Nat.or_eq_zero_iff]
  by_cases hpzero : (extractFloatExp F a = 0 ∧ extractFloatFrac F a = 0) ∨
      (extractFloatExp F b = 0 ∧ extractFloatFrac F b = 0)
  · have hprod : magnitude F a * magnitude F b = 0 := by
      rcases hpzero with hz | hz
      · rw [magnitude_zero hz, zero_mul]
      · rw [magnitude_zero hz, mul_zero]
    rw [if_pos hpzero, hprod, signed_zero, zero_add]
    exact muladdZero_delivered s t _ _ hfc htiny
  · rw [if_neg hpzero]
    obtain ⟨hza, hzb⟩ := not_or.mp hpzero
    exact muladdFinite_delivered h s t _ _ (unpacked_spec ha hza) (unpacked_spec hb hzb) hfc
      (mul_pos (magnitude_pos hza) (magnitude_pos hzb)) htiny

/-- The function on operands that are squashed. -/
theorem muladdSquashed_met (h : Exact F ops Fits val) (ha : a < 2 ^ F.width) (hb : b < 2 ^ F.width)
    (hc : c < 2 ^ F.width) (htiny : st.float_detect_tininess = .float_tininess_before_rounding) :
    (fused_outcome st flags (datum F a) (datum F b) (datum F c)).FusedMet F st a b c
      (muladdSquashed ops F a b c flags st) := by
  by_cases hnan : IsNaN F a ∨ IsNaN F b ∨ IsNaN F c
  · -- a NaN goes first
    have hsome : datum F a = .nan ∨ datum F b = .nan ∨ datum F c = .nan := by
      rcases hnan with hna | hnb | hnc
      · exact Or.inl hna.datum
      · exact Or.inr (Or.inl hnb.datum)
      · exact Or.inr (Or.inr hnc.datum)
    have hany : float_is_any_nan F a = true ∨ float_is_any_nan F b = true ∨ float_is_any_nan F c = true := by
      rw [any_nan_iff ha, any_nan_iff hb, any_nan_iff hc]
      exact hnan
    rw [fused_outcome_nan hsome, muladdSquashed, if_pos ((nan_test F a b c).mpr hnan)]
    exact propagateFloatMulAddNaN_spec ha hb hc hany st
  obtain ⟨hna, hnbc⟩ := not_or.mp hnan
  obtain ⟨hnb, hnc⟩ := not_or.mp hnbc
  have hcdatum : datum F c ≠ .nan := by
    rcases word_cases F hc with hbad | hic | hfc
    · exact absurd hbad hnc
    · rw [hic.datum]
      simp
    · rw [hfc.datum]
      simp
  have hpos := F.exp_max_pos
  -- an infinity times a zero
  have hinvalid : infzero F a b = true → product_outcome (datum F a) (datum F b) = .invalid →
      (fused_outcome st flags (datum F a) (datum F b) (datum F c)).FusedMet F st a b c
        (muladdSquashed ops F a b c flags st) := by
    intro hz hprod
    rw [fused_outcome, hprod]
    dsimp only
    rw [if_neg hcdatum, muladdSquashed, if_neg (mt (nan_test F a b c).mp hnan), if_pos hz]
    rfl
  rcases word_cases F ha with hbad | hia | hfa
  · exact absurd hbad hna
  · rcases word_cases F hb with hbad | hib | hfb
    · exact absurd hbad hnb
    · have hz : infzero F a b = false := by
        rw [infzero, decide_eq_false_iff_not, hia.1, hib.1]
        omega
      rw [fused_outcome, hia.datum, hib.datum, product_outcome]
      dsimp only
      rw [negated_infinity]
      exact muladd_infinite hnan hz (Or.inl hia.1) hc
    · by_cases hzero : value F b = 0
      · apply hinvalid
        · rw [infzero, decide_eq_true_iff]
          exact Or.inr ⟨hia.1, hia.2, (value_eq_zero F b).mp hzero⟩
        · rw [hia.datum, hfb.datum, product_outcome, if_pos hzero]
      · have hz : infzero F a b = false := by
          rw [infzero, decide_eq_false_iff_not]
          rintro (hbad | hbad)
          · exact hfb.2 hbad.2.2.1
          · exact hzero ((value_eq_zero F b).mpr hbad.2.2)
        rw [fused_outcome, hia.datum, hfb.datum, product_outcome, if_neg hzero]
        dsimp only
        rw [negated_infinity]
        exact muladd_infinite hnan hz (Or.inl hia.1) hc
  · rcases word_cases F hb with hbad | hib | hfb
    · exact absurd hbad hnb
    · by_cases hzero : value F a = 0
      · apply hinvalid
        · have hza := (value_eq_zero F a).mp hzero
          rw [infzero, decide_eq_true_iff]
          exact Or.inl ⟨hza.1, hza.2, hib.1, hib.2⟩
        · rw [hfa.datum, hib.datum, product_outcome, if_pos hzero]
      · have hz : infzero F a b = false := by
          rw [infzero, decide_eq_false_iff_not]
          rintro (hbad | hbad)
          · exact hzero ((value_eq_zero F a).mpr ⟨hbad.1, hbad.2.1⟩)
          · exact hfa.2 hbad.1
        rw [fused_outcome, hfa.datum, hib.datum, product_outcome, if_neg hzero]
        dsimp only
        rw [negated_infinity]
        exact muladd_infinite hnan hz (Or.inr hib.1) hc
    · rw [fused_outcome, hfa.datum, hfb.datum, product_outcome]
      exact muladd_number h hfa hfb hc hnc htiny

end words

/-- What `float32_muladd` and `float64_muladd` make of any three words, for all flags: the product is not rounded,
    the addend is added to it, and the sum is rounded once; infinities, NaNs and zeros are what the operands ask
    for. -/
theorem muladd_met (ha : a < 2 ^ F.width) (hb : b < 2 ^ F.width) (hc : c < 2 ^ F.width) (flags : ℕ)
    (htiny : st.float_detect_tininess = .float_tininess_before_rounding) :
    let pa := float_squash_input_denormal F a st
    let pb := float_squash_input_denormal F b pa.2
    let pc := float_squash_input_denormal F c pb.2
    (fused_outcome pc.2 flags (datum F pa.1) (datum F pb.1) (datum F pc.1)).FusedMet F pc.2 pa.1 pb.1 pc.1
      (float_muladd F a b c flags st) := by
  intro pa pb pc
  have htiny' : pc.2.float_detect_tininess = .float_tininess_before_rounding := by
    rw [(squash_modes F c pb.2).detect, (squash_modes F b pa.2).detect, (squash_modes F a st).detect, htiny]
  have hpa : pa.1 < 2 ^ F.width := squash_word ha st
  have hpb : pb.1 < 2 ^ F.width := squash_word hb pa.2
  have hpc : pc.1 < 2 ^ F.width := squash_word hc pb.2
  cases F with
  | float32 => exact muladdSquashed_met exact32 hpa hpb hpc htiny'
  | float64 => exact muladdSquashed_met exact64 hpa hpb hpc htiny'

/-- `1.5 * 1.5 - 2.0`, with the negation of the addend. -/
theorem muladd_met_negated :
    (fused_outcome initial_status float_muladd_negate_c (datum .float32 0x3FC00000) (datum .float32 0x3FC00000)
      (datum .float32 0x40000000)).FusedMet .float32 initial_status 0x3FC00000 0x3FC00000 0x40000000
      (float_muladd .float32 0x3FC00000 0x3FC00000 0x40000000 float_muladd_negate_c initial_status) :=
  @muladd_met .float32 initial_status 0x3FC00000 0x3FC00000 0x40000000 (by decide) (by decide) (by decide)
    float_muladd_negate_c rfl

end Umeq.Fpu
