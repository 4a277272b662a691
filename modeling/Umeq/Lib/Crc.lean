import Mathlib

/-! # Cyclic redundancy checks

    A checksum of `w` bits is the remainder of the message in a division of polynomials over the
    field of two elements. It is computed a bit at a time (`bit_step`), most often on words that
    are turned around (`reflected_step`), and `k` bits at a time from a table of what `k` steps
    make of each index.

    * `serial_remainder`: the steps compute the remainder.
    * `serial_reverse`: the steps on words that are turned around.
    * `table_step`: `k` of these steps, from a table.
-/

namespace Crc

variable {w : Nat}

/-! ## A bit at a time -/

section serial

variable (poly : BitVec w)

/-- The bit comes in at the upper end. -/
def bit_step (crc : BitVec w) (bit : Bool) : BitVec w :=
  (crc <<< 1) ^^^ if crc.msb ^^ bit then poly else 0#w

def bit_serial (crc : BitVec w) (message : List Bool) : BitVec w := message.foldl (bit_step poly) crc

/-- The same step from the lower end. -/
def reflected_step (crc : BitVec w) (bit : Bool) : BitVec w :=
  (crc >>> 1) ^^^ if crc.getLsbD 0 ^^ bit then poly else 0#w

def reflected_serial (crc : BitVec w) (message : List Bool) : BitVec w :=
  message.foldl (reflected_step poly) crc

/-- A word and its bits from the lower end. -/
def bits (k : Nat) (x : BitVec w) : List Bool := (List.range k).map x.getLsbD

theorem reverse_xor (x y : BitVec w) : (x ^^^ y).reverse = x.reverse ^^^ y.reverse := by
  apply BitVec.eq_of_getLsbD_eq
  intro i hi
  simp only [BitVec.getLsbD_reverse, BitVec.getLsbD_xor, BitVec.getMsbD_xor]

theorem reverse_shift (x : BitVec w) : (x <<< 1).reverse = x.reverse >>> 1 := by
  apply BitVec.eq_of_getLsbD_eq
  intro i hi
  simp only [BitVec.getLsbD_reverse, BitVec.getLsbD_ushiftRight, BitVec.getMsbD_shiftLeft,
    Nat.add_comm i 1]

theorem reverse_step (crc : BitVec w) (bit : Bool) :
    (bit_step poly crc bit).reverse = reflected_step poly.reverse crc.reverse bit := by
  have hmsb : crc.reverse.getLsbD 0 = crc.msb := BitVec.getLsbD_reverse
  unfold bit_step reflected_step
  rw [reverse_xor, reverse_shift, hmsb]
  cases crc.msb ^^ bit with
  | false => rw [if_neg Bool.false_ne_true, if_neg Bool.false_ne_true, BitVec.reverse_eq_zero_iff.mpr rfl]
  | true => rfl

/-- A message on a word that is turned around. -/
theorem serial_reverse (crc : BitVec w) (message : List Bool) :
    (bit_serial poly crc message).reverse = reflected_serial poly.reverse crc.reverse message := by
  induction message generalizing crc with
  | nil => rfl
  | cons bit message ih =>
    show (bit_serial poly (bit_step poly crc bit) message).reverse = _
    rw [ih, reverse_step]
    rfl

end serial

/-! ## Several bits at a time -/

section table

variable (poly : BitVec w)

/-- A step without a message. -/
def shift_step (crc : BitVec w) : BitVec w := reflected_step poly crc false

/-- What a bit that goes out brings in is linear. -/
theorem feedback_xor (a b : Bool) : (if a ^^ b then poly else 0#w) =
    (if a then poly else 0#w) ^^^ if b then poly else 0#w := by
  cases a <;> cases b <;> simp

/-- A step is linear in the word and in the bit. -/
theorem reflected_step_xor (x y : BitVec w) (a b : Bool) : reflected_step poly (x ^^^ y) (a ^^ b) =
    reflected_step poly x a ^^^ reflected_step poly y b := by
  have hbit : ((x ^^^ y).getLsbD 0 ^^ (a ^^ b)) = ((x.getLsbD 0 ^^ a) ^^ (y.getLsbD 0 ^^ b)) := by
    rw [BitVec.getLsbD_xor, Bool.xor_assoc, Bool.xor_assoc, Bool.xor_left_comm (y.getLsbD 0)]
  unfold reflected_step
  rw [hbit, feedback_xor, BitVec.ushiftRight_xor_distrib]
  ac_rfl

theorem shifts_xor (k : Nat) (x y : BitVec w) :
    (shift_step poly)^[k] (x ^^^ y) = (shift_step poly)^[k] x ^^^ (shift_step poly)^[k] y := by
  induction k generalizing x y with
  | zero => rfl
  | succ k ih =>
    have hstep : shift_step poly (x ^^^ y) = shift_step poly x ^^^ shift_step poly y :=
      reflected_step_xor poly x y false false
    rw [Function.iterate_succ_apply, hstep, ih]
    rfl

/-- Only zeros come out of a word whose lower bits are clear. -/
theorem shifts_clear (k : Nat) (x : BitVec w) (hx : ∀ i < k, x.getLsbD i = false) :
    (shift_step poly)^[k] x = x >>> k := by
  induction k with
  | zero => rfl
  | succ k ih =>
    have hbit : (x >>> k).getLsbD 0 = false := by
      rw [BitVec.getLsbD_ushiftRight]
      exact hx k (Nat.lt_succ_self k)
    rw [Function.iterate_succ_apply', ih fun i hi => hx i (Nat.lt_succ_of_lt hi)]
    unfold shift_step reflected_step
    rw [hbit, Bool.xor_self, if_neg Bool.false_ne_true, BitVec.xor_zero, BitVec.shiftRight_add]

/-- The bits of a number may as well be or-ed to the word before the steps. -/
theorem serial_bits (k : Nat) (crc m : BitVec w) (hm : m >>> k = 0#w) :
    reflected_serial poly crc (bits k m) = (shift_step poly)^[k] (crc ^^^ m) := by
  induction k generalizing crc m with
  | zero =>
    have hzero : m = 0#w := by simpa using hm
    rw [hzero, BitVec.xor_zero]
    rfl
  | succ k ih =>
    have hself : reflected_step poly m (m.getLsbD 0) = m >>> 1 := by
      unfold reflected_step
      rw [Bool.xor_self, if_neg Bool.false_ne_true, BitVec.xor_zero]
    have hstep : shift_step poly (crc ^^^ m) = reflected_step poly crc (m.getLsbD 0) ^^^ (m >>> 1) := by
      rw [← hself, ← reflected_step_xor, Bool.xor_self]
      rfl
    have hbits : bits (k + 1) m = m.getLsbD 0 :: bits k (m >>> 1) := by
      unfold bits
      rw [List.range_succ_eq_map, List.map_cons, List.map_map]
      congr 1
      apply List.map_congr_left
      intro i _
      rw [BitVec.getLsbD_ushiftRight, Nat.add_comm]
      rfl
    rw [hbits, Function.iterate_succ_apply, hstep]
    refine ih _ _ ?_
    rw [← hm, Nat.add_comm, BitVec.shiftRight_add]

/-- The lower bits of a word alone. -/
def low (k : Nat) (x : BitVec w) : BitVec w := (x.setWidth k).setWidth w

theorem getLsbD_low (k : Nat) (x : BitVec w) (i : Nat) :
    (low k x).getLsbD i = (decide (i < k) && x.getLsbD i) := by
  simp only [low, BitVec.getLsbD_setWidth]
  by_cases h : i < w
  · simp [h]
  · simp [BitVec.getLsbD_of_ge x i (by omega)]

/-- Several steps at once: what they make of the lower bits, and the other bits moved down. -/
theorem table_step (k : Nat) (x : BitVec w) :
    (shift_step poly)^[k] x = (shift_step poly)^[k] (low k x) ^^^ (x >>> k) := by
  have hsplit : x = low k x ^^^ (x ^^^ low k x) := by
    rw [BitVec.xor_comm x, ← BitVec.xor_assoc, BitVec.xor_self, BitVec.zero_xor]
  have hclear : ∀ i < k, (x ^^^ low k x).getLsbD i = false := by
    intro i hi
    rw [BitVec.getLsbD_xor, getLsbD_low, decide_eq_true hi, Bool.true_and, Bool.xor_self]
  have hhigh : (x ^^^ low k x) >>> k = x >>> k := by
    apply BitVec.eq_of_getLsbD_eq
    intro i _
    have hge : ¬ k + i < k := by omega
    simp [getLsbD_low, hge]
  calc (shift_step poly)^[k] x = (shift_step poly)^[k] (low k x ^^^ (x ^^^ low k x)) := by rw [← hsplit]
    _ = (shift_step poly)^[k] (low k x) ^^^ (shift_step poly)^[k] (x ^^^ low k x) := shifts_xor ..
    _ = (shift_step poly)^[k] (low k x) ^^^ (x >>> k) := by rw [shifts_clear poly k _ hclear, hhigh]

end table

/-! ## The division -/

section division

open Polynomial

/-- A word as a polynomial over the field of two elements. -/
noncomputable def toPoly (x : BitVec w) : (ZMod 2)[X] :=
  Polynomial.ofFn w fun i : Fin w => if x.getLsbD i then 1 else 0

/-- The divisor: its upper coefficient is not in the word. -/
noncomputable def divisor (poly : BitVec w) : (ZMod 2)[X] := X ^ w + toPoly poly

/-- The first bit of a message has the highest power. -/
noncomputable def toPolyMessage : List Bool → (ZMod 2)[X]
  | [] => 0
  | bit :: message => (if bit then X ^ message.length else 0) + toPolyMessage message

theorem coeff_toPoly (x : BitVec w) (i : Nat) : (toPoly x).coeff i = if x.getLsbD i then 1 else 0 := by
  unfold toPoly
  rcases Nat.lt_or_ge i w with h | h
  · rw [ofFn_coeff_eq_val_of_lt _ h]
  · rw [ofFn_coeff_eq_zero_of_ge _ h, BitVec.getLsbD_of_ge x i h]
    rfl

theorem degree_toPoly (x : BitVec w) : (toPoly x).degree < w := ofFn_degree_lt _

theorem toPoly_xor (x y : BitVec w) : toPoly (x ^^^ y) = toPoly x + toPoly y := by
  ext i
  rw [coeff_add, coeff_toPoly, coeff_toPoly, coeff_toPoly, BitVec.getLsbD_xor]
  cases x.getLsbD i <;> cases y.getLsbD i <;> decide

/-- A shift to the left is a product, but for the bit that goes out. -/
theorem toPoly_shift (hw : 0 < w) (x : BitVec w) :
    toPoly (x <<< 1) + (if x.msb then X ^ w else 0) = toPoly x * X := by
  ext i
  have hout : (if x.msb then X ^ w else 0 : (ZMod 2)[X]).coeff i =
      if x.msb ∧ i = w then 1 else 0 := by
    cases x.msb <;> simp [coeff_X_pow]
  rw [coeff_add, coeff_toPoly, BitVec.getLsbD_shiftLeft, hout]
  cases i with
  | zero => simp [mul_coeff_zero, hw.ne]
  | succ i =>
    rw [coeff_mul_X, coeff_toPoly]
    rcases Nat.lt_trichotomy (i + 1) w with h | h | h
    · simp [h, h.ne]
    · have hmsb : x.msb = x.getLsbD i := by
        rw [BitVec.msb_eq_getLsbD_last, show w - 1 = i by omega]
      simp [h, hmsb]
    · have hnone := BitVec.getLsbD_of_ge x i (by omega)
      simp [h.ne', hnone]

/-- One step divides by the divisor once at most. -/
theorem step_remainder (hw : 0 < w) (poly crc : BitVec w) (bit : Bool) :
    toPoly (bit_step poly crc bit) + divisor poly * (if crc.msb ^^ bit then 1 else 0) =
      toPoly crc * X + if bit then X ^ w else 0 := by
  have hzero : toPoly (0#w) = 0 := by
    ext i
    simp [coeff_toPoly]
  have htwo (p : (ZMod 2)[X]) : p + p = 0 := CharTwo.add_self_eq_zero p
  unfold bit_step divisor
  rw [toPoly_xor, ← toPoly_shift hw]
  cases crc.msb <;> cases bit <;> simp [hzero]
  · linear_combination htwo (toPoly poly)
  · linear_combination htwo (toPoly poly)
  · linear_combination - htwo (X ^ w : (ZMod 2)[X])

/-- What is added to the remainder, in steps of which each brings in one bit. -/
theorem serial_quotient (hw : 0 < w) (poly crc : BitVec w) (message : List Bool) :
    ∃ q, toPoly (bit_serial poly crc message) + divisor poly * q =
      toPoly crc * X ^ message.length + toPolyMessage message * X ^ w := by
  induction message generalizing crc with
  | nil => exact ⟨0, by simp [bit_serial, toPolyMessage]⟩
  | cons bit message ih =>
    obtain ⟨q, hq⟩ := ih (bit_step poly crc bit)
    have hstep := step_remainder hw poly crc bit
    refine ⟨q + (if crc.msb ^^ bit then 1 else 0) * X ^ message.length, ?_⟩
    show toPoly (bit_serial poly (bit_step poly crc bit) message) + _ = _
    have hbit : (if bit then X ^ message.length else 0 : (ZMod 2)[X]) * X ^ w =
        (if bit then X ^ w else 0) * X ^ message.length := by
      cases bit <;> simp [mul_comm]
    rw [List.length_cons, pow_succ, toPolyMessage, add_mul, hbit]
    linear_combination hq + X ^ message.length * hstep

theorem monic_divisor (poly : BitVec w) : (divisor poly).Monic :=
  monic_X_pow_add (degree_toPoly poly)

theorem degree_divisor (poly : BitVec w) : (divisor poly).degree = w :=
  (degree_add_eq_left_of_degree_lt (by rw [degree_X_pow]; exact degree_toPoly poly)).trans
    (degree_X_pow w)

/-- The steps compute the remainder of the message, after the word that they start with. -/
theorem serial_remainder (hw : 0 < w) (poly crc : BitVec w) (message : List Bool) :
    toPoly (bit_serial poly crc message) =
      (toPoly crc * X ^ message.length + toPolyMessage message * X ^ w) %ₘ divisor poly := by
  obtain ⟨q, hq⟩ := serial_quotient hw poly crc message
  have hdegree : (toPoly (bit_serial poly crc message)).degree < (divisor poly).degree := by
    rw [degree_divisor]
    exact degree_toPoly _
  exact ((div_modByMonic_unique q _ (monic_divisor poly) ⟨hq, hdegree⟩).2).symm

end division

end Crc
