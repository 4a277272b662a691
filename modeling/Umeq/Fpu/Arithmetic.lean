import Umeq.Fpu.Multiply
import Umeq.Fpu.AddSub
import Umeq.Fpu.Divide

/-! # The four operations on all words

    What the operations make of infinities, of NaNs and of a divisor that is zero, beside what they
    deliver for finite operands.

    * `operation.outcome`: what an operation yields for what its operands stand for.
    * `operation_met`: the functions yield it for all words.
-/

namespace Umeq.Fpu

open Rounding

variable {F : float_format} {st : float_status} {a b : ℕ} {zSign : Bool}

/-! ## Outcomes -/

inductive operation where
  | add | sub | mul | div
  deriving DecidableEq, Repr

def operation.apply (fuel : ℕ) (F : float_format) (a b : ℕ) (st : float_status) :
    operation → Option (ℕ × float_status)
  | .add => some (float_add F a b st)
  | .sub => some (float_sub F a b st)
  | .mul => some (float_mul F a b st)
  | .div => float_div fuel F a b st

/-- What a word stands for. -/
inductive Datum where
  | nan
  | infinity (sign : Bool)
  | number (sign : Bool) (x : ℚ)
  deriving DecidableEq

def datum (F : float_format) (a : ℕ) : Datum :=
  if extractFloatExp F a = F.exp_max then
    if extractFloatFrac F a = 0 then .infinity (extractFloatSign F a) else .nan
  else .number (extractFloatSign F a) (value F a)

def Datum.neg : Datum → Datum
  | .nan => .nan
  | .infinity s => .infinity !s
  | .number s x => .number (!s) (-x)

/-- What an operation yields before it is rounded; an exact number comes with the sign of its zero. -/
inductive Outcome where
  | nan
  | invalid
  | infinity (sign : Bool) (flags : BitVec 8)
  | number (sign : Bool) (x : ℚ)

def sum_outcome (st : float_status) : Datum → Datum → Outcome
  | .nan, _ | _, .nan => .nan
  | .infinity s, .infinity t => if s = t then .infinity s 0#8 else .invalid
  | .infinity s, .number _ _ => .infinity s 0#8
  | .number _ _, .infinity t => .infinity t 0#8
  | .number s x, .number t y => .number (sum_sign st s t (x + y)) (x + y)

def product_outcome : Datum → Datum → Outcome
  | .nan, _ | _, .nan => .nan
  | .infinity s, .infinity t => .infinity (s ^^ t) 0#8
  | .infinity s, .number t y => if y = 0 then .invalid else .infinity (s ^^ t) 0#8
  | .number s x, .infinity t => if x = 0 then .invalid else .infinity (s ^^ t) 0#8
  | .number s x, .number t y => .number (s ^^ t) (x * y)

def quotient_outcome : Datum → Datum → Outcome
  | .nan, _ | _, .nan => .nan
  | .infinity _, .infinity _ => .invalid
  | .infinity s, .number t _ => .infinity (s ^^ t) 0#8
  | .number s _, .infinity t => .number (s ^^ t) 0
  | .number s x, .number t y =>
    if y = 0 then if x = 0 then .invalid else .infinity (s ^^ t) float_flag_divbyzero
    else .number (s ^^ t) (x / y)

def operation.outcome (st : float_status) (d e : Datum) : operation → Outcome
  | .add => sum_outcome st d e
  | .sub => sum_outcome st d e.neg
  | .mul => product_outcome d e
  | .div => quotient_outcome d e

/-- What a function returns for an outcome. A NaN is taken from the operands, and raises an exception
    if one of them is signaling. -/
def Outcome.Met (F : float_format) (st : float_status) (a b : ℕ) (z : ℕ × float_status) : Outcome → Prop
  | .nan => z = (if st.default_nan_mode then float_default_nan F else quieted F (nan_operand F a b),
      float_raise (if float_is_signaling_nan F a = true ∨ float_is_signaling_nan F b = true then
        float_flag_invalid else 0#8) st)
  | .invalid => z = (float_default_nan F, float_raise float_flag_invalid st)
  | .infinity s flags => z = (packFloat F s F.exp_max 0, float_raise flags st)
  | .number s x => Delivered F st s x z

/-! ## Words that are not finite -/

theorem IsNaN.datum (h : IsNaN F a) : datum F a = .nan := by
  rw [Fpu.datum, if_pos h.1, if_neg h.2]

theorem IsInfinity.datum (h : IsInfinity F a) : datum F a = .infinity (extractFloatSign F a) := by
  rw [Fpu.datum, if_pos h.1, if_pos h.2]

theorem Finite.datum (h : Finite F a) : datum F a = .number (extractFloatSign F a) (value F a) := by
  rw [Fpu.datum, if_neg h.2]

/-- The fraction of a word as the operations hold it. -/
theorem shifted_eq_zero {k : ℕ} (hk : k ≤ F.guard) (a : ℕ) :
    (extractFloatFrac F a <<< k) % 2 ^ F.width = 0 ↔ extractFloatFrac F a = 0 := by
  have hlt : extractFloatFrac F a * 2 ^ k < 2 ^ F.width := by
    calc extractFloatFrac F a * 2 ^ k < 2 ^ F.frac_bits * 2 ^ k :=
          Nat.mul_lt_mul_of_pos_right frac_lt (by positivity)
      _ = 2 ^ (F.frac_bits + k) := (pow_add _ _ _).symm
      _ ≤ 2 ^ F.width := Nat.pow_le_pow_right (by norm_num) (by have := F.guard_eq; omega)
  rw [Nat.shiftLeft_eq, Nat.mod_eq_of_lt hlt]
  have hpos : 0 < 2 ^ k := by positivity
  constructor
  · intro h
    exact (Nat.mul_eq_zero.mp h).resolve_right hpos.ne'
  · intro h
    rw [h, Nat.zero_mul]

/-! ## Sums with such an operand -/

theorem sigs_nan (h : IsNaN F a ∨ IsNaN F b) :
    addFloatSigs F a b zSign st = propagateFloatNaN F a b st ∧
      subFloatSigs F a b zSign st = propagateFloatNaN F a b st := by
  have hguard := F.guard_pos
  have hA := shifted_eq_zero (F := F) (k := F.guard - 1) (by omega) a
  have hB := shifted_eq_zero (F := F) (k := F.guard - 1) (by omega) b
  have hA' := shifted_eq_zero (F := F) (le_refl F.guard) a
  have hB' := shifted_eq_zero (F := F) (le_refl F.guard) b
  have hea := exp_le (F := F) (a := a)
  have heb := exp_le (F := F) (a := b)
  unfold IsNaN at h
  unfold addFloatSigs subFloatSigs
  dsimp only
  generalize extractFloatExp F a = ea at *
  generalize extractFloatExp F b = eb at *
  rcases Nat.lt_trichotomy eb ea with hlt | heq | hgt
  · -- the larger exponent is the one of the NaN
    have hnan : ea = F.exp_max ∧ extractFloatFrac F a ≠ 0 := h.resolve_right (by omega)
    rw [if_pos hlt, if_pos hnan.1, if_pos fun hc => hnan.2 (hA.mp hc), if_pos hlt, if_pos hnan.1,
      if_pos fun hc => hnan.2 (hA'.mp hc)]
    exact ⟨rfl, rfl⟩
  · have hmax : ea = F.exp_max := by rcases h with h | h <;> omega
    have hfracs : ¬ (extractFloatFrac F a = 0 ∧ extractFloatFrac F b = 0) := by omega
    rw [if_neg (by omega), if_neg (by omega), if_pos hmax, if_pos, if_neg (by omega), if_neg (by omega),
      if_pos hmax, if_pos]
    · exact ⟨rfl, rfl⟩
    · rwa [Ne, Nat.or_eq_zero_iff, hA', hB']
    · rwa [Ne, Nat.or_eq_zero_iff, hA, hB]
  · have hnan : eb = F.exp_max ∧ extractFloatFrac F b ≠ 0 := h.resolve_left (by omega)
    rw [if_neg (by omega), if_pos hgt, if_pos hnan.1, if_pos fun hc => hnan.2 (hB.mp hc), if_neg (by omega),
      if_pos hgt, if_pos hnan.1, if_pos fun hc => hnan.2 (hB'.mp hc)]
    exact ⟨rfl, rfl⟩

/-- An infinity that is added to, or from which is subtracted, stays as it is. -/
theorem sigs_infinity_left (ha : IsInfinity F a) (hb : extractFloatExp F b ≠ F.exp_max) :
    addFloatSigs F a b zSign st = (a, st) ∧ subFloatSigs F a b zSign st = (a, st) := by
  have hguard := F.guard_pos
  have hA := shifted_eq_zero (F := F) (k := F.guard - 1) (by omega) a
  have hA' := shifted_eq_zero (F := F) (le_refl F.guard) a
  have heb := exp_le (F := F) (a := b)
  have hlt : extractFloatExp F b < extractFloatExp F a := by rw [ha.1]; omega
  unfold addFloatSigs subFloatSigs
  dsimp only
  rw [if_pos hlt, if_pos ha.1, if_neg fun hc => hc (hA.mpr ha.2), if_pos hlt, if_pos ha.1,
    if_neg fun hc => hc (hA'.mpr ha.2)]
  exact ⟨rfl, rfl⟩

theorem sigs_infinity_right (ha : extractFloatExp F a ≠ F.exp_max) (hb : IsInfinity F b) :
    addFloatSigs F a b zSign st = (packFloat F zSign F.exp_max 0, st) ∧
      subFloatSigs F a b zSign st = (packFloat F (!zSign) F.exp_max 0, st) := by
  have hguard := F.guard_pos
  have hB := shifted_eq_zero (F := F) (k := F.guard - 1) (by omega) b
  have hB' := shifted_eq_zero (F := F) (le_refl F.guard) b
  have hea := exp_le (F := F) (a := a)
  have hlt : extractFloatExp F a < extractFloatExp F b := by rw [hb.1]; omega
  have hnot : ¬ extractFloatExp F b < extractFloatExp F a := by omega
  unfold addFloatSigs subFloatSigs
  dsimp only
  rw [if_neg hnot, if_pos hlt, if_pos hb.1, if_neg fun hc => hc (hB.mpr hb.2), if_neg hnot, if_pos hlt,
    if_pos hb.1, if_neg fun hc => hc (hB'.mpr hb.2)]
  exact ⟨rfl, rfl⟩

theorem sigs_infinity_both (ha : IsInfinity F a) (hb : IsInfinity F b) :
    addFloatSigs F a b zSign st = (a, st) ∧
      subFloatSigs F a b zSign st = (float_default_nan F, float_raise float_flag_invalid st) := by
  have hguard := F.guard_pos
  have hk : F.guard - 1 ≤ F.guard := by omega
  have hor : (extractFloatFrac F a <<< (F.guard - 1)) % 2 ^ F.width |||
      (extractFloatFrac F b <<< (F.guard - 1)) % 2 ^ F.width = 0 := by
    rw [(shifted_eq_zero hk a).mpr ha.2, (shifted_eq_zero hk b).mpr hb.2, Nat.or_self]
  have hor' : (extractFloatFrac F a <<< F.guard) % 2 ^ F.width |||
      (extractFloatFrac F b <<< F.guard) % 2 ^ F.width = 0 := by
    rw [(shifted_eq_zero (le_refl F.guard) a).mpr ha.2, (shifted_eq_zero (le_refl F.guard) b).mpr hb.2,
      Nat.or_self]
  unfold addFloatSigs subFloatSigs
  dsimp only
  rw [ha.1, hb.1, if_neg (lt_irrefl _), if_neg (lt_irrefl _), if_pos rfl, if_neg fun hc => hc hor,
    if_neg (lt_irrefl _), if_neg (lt_irrefl _), if_pos rfl, if_neg fun hc => hc hor']
  exact ⟨rfl, rfl⟩

/-! ## All words -/

theorem sum_outcome_nan (d : Datum) : sum_outcome st d .nan = .nan := by cases d <;> rfl

theorem product_outcome_nan (d : Datum) : product_outcome d .nan = .nan := by cases d <;> rfl

theorem quotient_outcome_nan (d : Datum) : quotient_outcome d .nan = .nan := by cases d <;> rfl

theorem nan_met (ha : a < 2 ^ F.width) (hb : b < 2 ^ F.width) (h : IsNaN F a ∨ IsNaN F b) :
    Outcome.nan.Met F st a b (propagateFloatNaN F a b st) := by
  apply propagateFloatNaN_spec ha hb
  rcases h with h | h
  · exact Or.inl ((any_nan_iff ha).mpr h)
  · exact Or.inr ((any_nan_iff hb).mpr h)

theorem infinity_met (s : Bool) :
    (Outcome.infinity s 0#8).Met F st a b (packFloat F s F.exp_max 0, st) := by
  rw [Outcome.Met, raise_zero]

theorem operand_met (ha : a < 2 ^ F.width) (h : IsInfinity F a) (b c : ℕ) :
    (Outcome.infinity (extractFloatSign F a) 0#8).Met F st b c (a, st) := by
  rw [Outcome.Met, raise_zero]
  exact congrArg (fun z => (z, st)) (h.word ha)

theorem sum_met (ha : a < 2 ^ F.width) (hb : b < 2 ^ F.width) (hsqa : Squashed F st a) (hsqb : Squashed F st b)
    (htiny : st.float_detect_tininess = .float_tininess_before_rounding) :
    (sum_outcome st (datum F a) (datum F b)).Met F st a b (addSquashed F a b st) := by
  have hnan : ∀ h : IsNaN F a ∨ IsNaN F b, addSquashed F a b st = propagateFloatNaN F a b st := by
    intro h
    unfold addSquashed
    rw [(sigs_nan h).1, (sigs_nan h).2, ite_self]
  rcases word_cases F ha with hna | hia | hfa
  · rw [hna.datum, hnan (Or.inl hna)]
    exact nan_met ha hb (Or.inl hna)
  · rcases word_cases F hb with hnb | hib | hfb
    · rw [hnb.datum, sum_outcome_nan, hnan (Or.inr hnb)]
      exact nan_met ha hb (Or.inr hnb)
    · -- two infinities: their signs agree, or there is no sum
      rw [hia.datum, hib.datum, addSquashed, (sigs_infinity_both hia hib).1, (sigs_infinity_both hia hib).2,
        sum_outcome]
      split_ifs
      · exact operand_met ha hia a b
      · rfl
    · rw [hia.datum, hfb.datum, addSquashed, (sigs_infinity_left hia hfb.2).1, (sigs_infinity_left hia hfb.2).2,
        ite_self, sum_outcome]
      exact operand_met ha hia a b
  · rcases word_cases F hb with hnb | hib | hfb
    · rw [hnb.datum, sum_outcome_nan, hnan (Or.inr hnb)]
      exact nan_met ha hb (Or.inr hnb)
    · rw [hfa.datum, hib.datum, addSquashed, (sigs_infinity_right hfa.2 hib).1, (sigs_infinity_right hfa.2 hib).2,
        sum_outcome]
      split_ifs with hsign
      · rw [hsign]
        exact infinity_met _
      · rw [sign_cases hsign]
        exact infinity_met _
    · rw [hfa.datum, hfb.datum]
      exact addSquashed_delivered hfa hfb hsqa hsqb htiny

theorem difference_met (ha : a < 2 ^ F.width) (hb : b < 2 ^ F.width) (hsqa : Squashed F st a)
    (hsqb : Squashed F st b) (htiny : st.float_detect_tininess = .float_tininess_before_rounding) :
    (sum_outcome st (datum F a) (datum F b).neg).Met F st a b (subSquashed F a b st) := by
  have hnan : ∀ h : IsNaN F a ∨ IsNaN F b, subSquashed F a b st = propagateFloatNaN F a b st := by
    intro h
    unfold subSquashed
    rw [(sigs_nan h).1, (sigs_nan h).2, ite_self]
  rcases word_cases F ha with hna | hia | hfa
  · rw [hna.datum, hnan (Or.inl hna)]
    exact nan_met ha hb (Or.inl hna)
  · rcases word_cases F hb with hnb | hib | hfb
    · rw [hnb.datum, Datum.neg, sum_outcome_nan, hnan (Or.inr hnb)]
      exact nan_met ha hb (Or.inr hnb)
    · rw [hia.datum, hib.datum, Datum.neg, subSquashed, (sigs_infinity_both hia hib).1,
        (sigs_infinity_both hia hib).2, sum_outcome]
      by_cases hsign : extractFloatSign F a = extractFloatSign F b
      · rw [if_pos hsign, if_neg (by rw [hsign]; cases extractFloatSign F b <;> decide)]
        rfl
      · rw [if_neg hsign, if_pos (by rw [sign_cases hsign, Bool.not_not])]
        exact operand_met ha hia a b
    · rw [hia.datum, hfb.datum, Datum.neg, subSquashed, (sigs_infinity_left hia hfb.2).1,
        (sigs_infinity_left hia hfb.2).2, ite_self, sum_outcome]
      exact operand_met ha hia a b
  · rcases word_cases F hb with hnb | hib | hfb
    · rw [hnb.datum, Datum.neg, sum_outcome_nan, hnan (Or.inr hnb)]
      exact nan_met ha hb (Or.inr hnb)
    · rw [hfa.datum, hib.datum, Datum.neg, subSquashed, (sigs_infinity_right hfa.2 hib).1,
        (sigs_infinity_right hfa.2 hib).2, sum_outcome]
      split_ifs with hsign
      · rw [hsign]
        exact infinity_met _
      · rw [sign_cases hsign, Bool.not_not]
        exact infinity_met _
    · rw [hfa.datum, hfb.datum, Datum.neg, sum_outcome, ← sub_eq_add_neg]
      exact subSquashed_delivered hfa hfb hsqa hsqb htiny

theorem value_eq_zero (F : float_format) (a : ℕ) :
    value F a = 0 ↔ extractFloatExp F a = 0 ∧ extractFloatFrac F a = 0 := by
  rw [value, signed_eq_zero]
  constructor
  · intro h
    by_contra hne
    exact (magnitude_pos hne).ne' h
  · exact magnitude_zero

theorem product_met (ha : a < 2 ^ F.width) (hb : b < 2 ^ F.width)
    (htiny : st.float_detect_tininess = .float_tininess_before_rounding) :
    (product_outcome (datum F a) (datum F b)).Met F st a b (mulSquashed F a b st) := by
  rcases word_cases F ha with hna | hia | hfa
  · rw [hna.datum, mulSquashed, if_pos hna.1, if_pos (Or.inl hna.2)]
    exact nan_met ha hb (Or.inl hna)
  · rcases word_cases F hb with hnb | hib | hfb
    · rw [hnb.datum, product_outcome_nan, mulSquashed, if_pos hia.1, if_pos (Or.inr ⟨hnb.1, hnb.2⟩)]
      exact nan_met ha hb (Or.inr hnb)
    · have hmax := F.exp_max_pos
      rw [hia.datum, hib.datum, mulSquashed, if_pos hia.1, if_neg (by simp [hia.2, hib.2]),
        if_neg (by rw [hib.1]; omega)]
      exact infinity_met _
    · rw [hia.datum, hfb.datum, mulSquashed, if_pos hia.1, if_neg (by simp [hia.2, hfb.2]), product_outcome]
      simp only [value_eq_zero]
      split_ifs
      · rfl
      · exact infinity_met _
  · rcases word_cases F hb with hnb | hib | hfb
    · rw [hnb.datum, product_outcome_nan, mulSquashed, if_neg hfa.2, if_pos hnb.1, if_pos hnb.2]
      exact nan_met ha hb (Or.inr hnb)
    · rw [hfa.datum, hib.datum, mulSquashed, if_neg hfa.2, if_pos hib.1, if_neg (not_not.mpr hib.2),
        product_outcome]
      simp only [value_eq_zero]
      split_ifs
      · rfl
      · exact infinity_met _
    · rw [hfa.datum, hfb.datum]
      exact mulSquashed_delivered hfa hfb htiny

theorem quotient_met {fuel : ℕ} (hfuel : 3 ≤ fuel) (ha : a < 2 ^ F.width) (hb : b < 2 ^ F.width)
    (htiny : st.float_detect_tininess = .float_tininess_before_rounding) :
    ∃ z, divSquashed fuel F a b st = some z ∧ (quotient_outcome (datum F a) (datum F b)).Met F st a b z := by
  rcases word_cases F ha with hna | hia | hfa
  · rw [hna.datum, divSquashed, if_pos hna.1, if_pos hna.2]
    exact ⟨_, rfl, nan_met ha hb (Or.inl hna)⟩
  · rcases word_cases F hb with hnb | hib | hfb
    · rw [hnb.datum, quotient_outcome_nan, divSquashed, if_pos hia.1, if_neg (not_not.mpr hia.2), if_pos hnb.1,
        if_pos hnb.2]
      exact ⟨_, rfl, nan_met ha hb (Or.inr hnb)⟩
    · rw [hia.datum, hib.datum, divSquashed, if_pos hia.1, if_neg (not_not.mpr hia.2), if_pos hib.1,
        if_neg (not_not.mpr hib.2)]
      exact ⟨_, rfl, rfl⟩
    · rw [hia.datum, hfb.datum, divSquashed, if_pos hia.1, if_neg (not_not.mpr hia.2), if_neg hfb.2]
      exact ⟨_, rfl, infinity_met _⟩
  · rcases word_cases F hb with hnb | hib | hfb
    · rw [hnb.datum, quotient_outcome_nan, divSquashed, if_neg hfa.2, if_pos hnb.1, if_pos hnb.2]
      exact ⟨_, rfl, nan_met ha hb (Or.inr hnb)⟩
    · rw [hfa.datum, hib.datum, divSquashed, if_neg hfa.2, if_pos hib.1, if_neg (not_not.mpr hib.2)]
      exact ⟨_, rfl, delivered_zero _ _⟩
    · by_cases hzero : value F b = 0
      · -- a divisor that is zero
        have hzb := (value_eq_zero F b).mp hzero
        rw [hfa.datum, hfb.datum, quotient_outcome, if_pos hzero, divSquashed, if_neg hfa.2, if_neg hfb.2,
          if_pos hzb]
        simp only [value_eq_zero]
        split_ifs
        · exact ⟨_, rfl, rfl⟩
        · exact ⟨_, rfl, rfl⟩
      · obtain ⟨z, hz, hdelivered⟩ := divSquashed_delivered hfuel hfa hfb hzero htiny
        rw [hfa.datum, hfb.datum, quotient_outcome, if_neg hzero]
        exact ⟨z, hz, hdelivered⟩

theorem squash_word (ha : a < 2 ^ F.width) (st : float_status) :
    (float_squash_input_denormal F a st).1 < 2 ^ F.width := by
  unfold float_squash_input_denormal
  split_ifs
  · exact Nat.and_le_left.trans_lt ha
  · exact ha

/-- Subnormal words do not pass where results are flushed as well. -/
theorem squash_all (ha : a < 2 ^ F.width) (hflush : FlushTogether st) :
    Squashed F st (float_squash_input_denormal F a st).1 := by
  by_cases hfinite : extractFloatExp F a = F.exp_max
  · have hmax := F.exp_max_pos
    intro _ hexp
    rw [float_squash_input_denormal, if_neg fun hc => by omega] at hexp
    dsimp only at hexp
    omega
  · exact squash_squashed ⟨ha, hfinite⟩ hflush

/-- An operation on operands that are squashed already. -/
def operation.squashed (fuel : ℕ) (F : float_format) (a b : ℕ) (st : float_status) :
    operation → Option (ℕ × float_status)
  | .add => some (addSquashed F a b st)
  | .sub => some (subSquashed F a b st)
  | .mul => some (mulSquashed F a b st)
  | .div => divSquashed fuel F a b st

theorem operation.apply_eq (op : operation) (fuel : ℕ) (F : float_format) (a b : ℕ) (st : float_status) :
    op.apply fuel F a b st =
      op.squashed fuel F (float_squash_input_denormal F a st).1
        (float_squash_input_denormal F b (float_squash_input_denormal F a st).2).1
        (float_squash_input_denormal F b (float_squash_input_denormal F a st).2).2 := by
  cases op <;> rfl

/-- Operands and a status as the operations expect them. -/
structure Ready (F : float_format) (a b : ℕ) (st : float_status) : Prop where
  left : a < 2 ^ F.width
  right : b < 2 ^ F.width
  left_squashed : Squashed F st a
  right_squashed : Squashed F st b
  tininess : st.float_detect_tininess = .float_tininess_before_rounding

theorem squash_ready (ha : a < 2 ^ F.width) (hb : b < 2 ^ F.width) (hflush : FlushTogether st)
    (htiny : st.float_detect_tininess = .float_tininess_before_rounding) :
    Ready F (float_squash_input_denormal F a st).1
      (float_squash_input_denormal F b (float_squash_input_denormal F a st).2).1
      (float_squash_input_denormal F b (float_squash_input_denormal F a st).2).2 := by
  have hfirst := squash_modes F a st
  have hsecond := squash_modes F b (float_squash_input_denormal F a st).2
  have hflush' : FlushTogether (float_squash_input_denormal F a st).2 := by
    rw [FlushTogether, hfirst.flush, hfirst.flush_inputs, hflush]
  constructor
  · exact squash_word ha st
  · exact squash_word hb _
  · intro h
    exact squash_all ha hflush ((hfirst.trans hsecond).flush ▸ h)
  · intro h
    exact squash_all hb hflush' (hsecond.flush ▸ h)
  · rw [(hfirst.trans hsecond).detect, htiny]

theorem Ready.met {fuel : ℕ} (h : Ready F a b st) (hfuel : 3 ≤ fuel) (op : operation) :
    ∃ z, op.squashed fuel F a b st = some z ∧ (op.outcome st (datum F a) (datum F b)).Met F st a b z := by
  obtain ⟨ha, hb, hsqa, hsqb, htiny⟩ := h
  cases op with
  | add => exact ⟨_, rfl, sum_met ha hb hsqa hsqb htiny⟩
  | sub => exact ⟨_, rfl, difference_met ha hb hsqa hsqb htiny⟩
  | mul => exact ⟨_, rfl, product_met ha hb htiny⟩
  | div => exact quotient_met hfuel ha hb htiny

/-- What the four operations make of any two words: in each case they return, and yield what the
    operands ask for. -/
theorem operation_met {fuel : ℕ} (op : operation) (hfuel : 3 ≤ fuel) (ha : a < 2 ^ F.width) (hb : b < 2 ^ F.width)
    (hflush : FlushTogether st) (htiny : st.float_detect_tininess = .float_tininess_before_rounding) :
    let pa := float_squash_input_denormal F a st
    let pb := float_squash_input_denormal F b pa.2
    ∃ z, op.apply fuel F a b st = some z ∧
      (op.outcome pb.2 (datum F pa.1) (datum F pb.1)).Met F pb.2 pa.1 pb.1 z := by
  intro pa pb
  rw [op.apply_eq]
  exact (squash_ready ha hb hflush htiny).met hfuel op

/-- `1.0 / 0.0`. -/
theorem operation_met_zero :
    ∃ z, operation.div.apply 3 .float64 0x3FF0000000000000 0 initial_status = some z ∧
      (operation.div.outcome initial_status (datum .float64 0x3FF0000000000000) (datum .float64 0)).Met .float64
        initial_status 0x3FF0000000000000 0 z :=
  @operation_met .float64 initial_status 0x3FF0000000000000 0 3 .div (le_refl 3) (by decide) (by decide) rfl rfl

end Umeq.Fpu
