import Umeq.Lib.AddWithCarry

/-! # The flags of `arm64_helpers.c`

    Additions, subtractions and logical operations that set the flags call a helper for
    the next value of `nzcv`; conditional instructions call another one that reads it. The
    helpers find the carry and the overflow with a comparison and a few bit operations.

    A subtraction with carry is an addition of the complement: `dis_add_substract_with_carry`
    asks for `OPS_ADC` with the second operand inverted.
-/

namespace Umeq.Arm64

open AddWithCarry

/-! ## The helpers -/

inductive ops where
  | OPS_ADD | OPS_SUB | OPS_LOGICAL | OPS_ADC
  deriving DecidableEq, Repr

def arm64_hlp_compute_next_nzcv_32 (ops : ops) (op1 op2 oldnzcv : BitVec 32) : BitVec 32 :=
  let c_in := (oldnzcv >>> 29) &&& 1#32
  let (calc_, c, v) : BitVec 32 × BitVec 32 × BitVec 32 := match ops with
    | .OPS_ADD =>
      let calc_ := op1 + op2
      (calc_, if calc_ < op1 then 0x20000000#32 else 0#32,
        (((calc_ ^^^ op1) &&& (calc_ ^^^ op2)) >>> 3) &&& 0x10000000#32)
    | .OPS_SUB =>
      let calc_ := op1 - op2
      (calc_, if op2 ≤ op1 then 0x20000000#32 else 0#32,
        (((op1 ^^^ op2) &&& (op1 ^^^ calc_)) >>> 3) &&& 0x10000000#32)
    | .OPS_LOGICAL => (op1, 0, 0)
    | .OPS_ADC =>
      let calc_ := op1 + op2 + c_in
      (calc_,
        if c_in ≠ 0 then if calc_ ≤ op1 then 0x20000000#32 else 0#32
        else if calc_ < op1 then 0x20000000#32 else 0#32,
        (((calc_ ^^^ op1) &&& (calc_ ^^^ op2)) >>> 3) &&& 0x10000000#32)
  let n := calc_ &&& 0x80000000#32
  let z := if calc_ = 0 then 0x40000000#32 else 0#32
  n ||| z ||| c ||| v ||| (oldnzcv &&& 0x0fffffff#32)

def arm64_hlp_compute_next_nzcv_64 (ops : ops) (op1 op2 : BitVec 64) (oldnzcv : BitVec 32) :
    BitVec 32 :=
  let c_in := (oldnzcv >>> 29) &&& 1#32
  let (calc_, c, v) : BitVec 64 × BitVec 32 × BitVec 32 := match ops with
    | .OPS_ADD =>
      let calc_ := op1 + op2
      (calc_, if calc_ < op1 then 0x20000000#32 else 0#32,
        ((((calc_ ^^^ op1) &&& (calc_ ^^^ op2)) >>> 35) &&& 0x10000000#64).setWidth 32)
    | .OPS_SUB =>
      let calc_ := op1 - op2
      (calc_, if op2 ≤ op1 then 0x20000000#32 else 0#32,
        ((((op1 ^^^ op2) &&& (op1 ^^^ calc_)) >>> 35) &&& 0x10000000#64).setWidth 32)
    | .OPS_LOGICAL => (op1, 0, 0)
    | .OPS_ADC =>
      let calc_ := op1 + op2 + c_in.setWidth 64
      (calc_,
        if c_in ≠ 0 then if calc_ ≤ op1 then 0x20000000#32 else 0#32
        else if calc_ < op1 then 0x20000000#32 else 0#32,
        ((((calc_ ^^^ op1) &&& (calc_ ^^^ op2)) >>> 35) &&& 0x10000000#64).setWidth 32)
  let n := ((calc_ &&& 0x8000000000000000#64) >>> 32).setWidth 32
  let z := if calc_ = 0 then 0x40000000#32 else 0#32
  n ||| z ||| c ||| v ||| (oldnzcv &&& 0x0fffffff#32)

/-- The predicate is one when the condition holds; the failed assert of a condition of more
    than four bits is `none`. -/
def arm64_hlp_compute_flags_pred (cond nzcv : BitVec 32) : Option Nat :=
  let pred : Option Nat := match (cond >>> 1).toNat with
    | 0 => some (if nzcv &&& 0x40000000#32 ≠ 0 then 1 else 0)
    | 1 => some (if nzcv &&& 0x20000000#32 ≠ 0 then 1 else 0)
    | 2 => some (if nzcv &&& 0x80000000#32 ≠ 0 then 1 else 0)
    | 3 => some (if nzcv &&& 0x10000000#32 ≠ 0 then 1 else 0)
    | 4 => some (if nzcv &&& 0x20000000#32 ≠ 0 ∧ ¬ nzcv &&& 0x40000000#32 ≠ 0 then 1 else 0)
    | 5 =>
      let n := (nzcv >>> 31) &&& 1#32
      let v := (nzcv >>> 28) &&& 1#32
      some (if n = v then 1 else 0)
    | 6 =>
      let n := (nzcv >>> 31) &&& 1#32
      let z := (nzcv >>> 30) &&& 1#32
      let v := (nzcv >>> 28) &&& 1#32
      some (if z = 0#32 ∧ n = v then 1 else 0)
    | 7 => some 1
    | _ => none
  pred.map fun pred => if cond &&& 1#32 ≠ 0#32 ∧ cond ≠ 15#32 then 1 - pred else pred

/-! ## What the architecture asks for -/

/-- The flags of an operation, with the carry that is there before. -/
def ops.flags {w : Nat} (ops : ops) (op1 op2 : BitVec w) (carry : Bool) : flags :=
  match ops with
  | .OPS_ADD => (add op1 op2 false).2
  | .OPS_SUB => (sub op1 op2).2
  | .OPS_LOGICAL => logical op1 false false
  | .OPS_ADC => (add op1 op2 carry).2

theorem next_nzcv_32 (ops : ops) (op1 op2 old : BitVec 32) :
    arm64_hlp_compute_next_nzcv_32 ops op1 op2 old =
      (ops.flags op1 op2 (old.getLsbD 29)).word old := by
  cases ops with
  | OPS_ADD =>
    rw [ops.flags, add_flags (by decide)]
    exact word_32 (op1 + op2 < op1) old _ _
  | OPS_SUB =>
    rw [ops.flags, sub_flags (by decide)]
    exact word_32 (op2 ≤ op1) old _ _
  | OPS_LOGICAL => exact word_logical_32 old op1 false false
  | OPS_ADC =>
    rw [ops.flags, adc_flags (by decide), arm64_hlp_compute_next_nzcv_32]
    simp only [carry_in_32, carry_choice]
    exact word_32 _ old _ _

theorem next_nzcv_64 (ops : ops) (op1 op2 : BitVec 64) (old : BitVec 32) :
    arm64_hlp_compute_next_nzcv_64 ops op1 op2 old =
      (ops.flags op1 op2 (old.getLsbD 29)).word old := by
  cases ops with
  | OPS_ADD =>
    rw [ops.flags, add_flags (by decide)]
    exact word_64 (op1 + op2 < op1) old _ _
  | OPS_SUB =>
    rw [ops.flags, sub_flags (by decide)]
    exact word_64 (op2 ≤ op1) old _ _
  | OPS_LOGICAL => exact word_logical_64 old op1 false false
  | OPS_ADC =>
    have hcarry : (BitVec.ofNat 32 (old.getLsbD 29).toNat).setWidth 64 =
        BitVec.ofNat 64 (old.getLsbD 29).toNat := by
      cases old.getLsbD 29 <;> rfl
    rw [ops.flags, adc_flags (by decide), arm64_hlp_compute_next_nzcv_64]
    simp only [carry_in_32, carry_choice, hcarry]
    exact word_64 _ old _ _

/-- The predicate of a condition is what the flags of the word say. -/
theorem flags_pred_word (cond : BitVec 4) (f : flags) (old : BitVec 32) :
    arm64_hlp_compute_flags_pred (cond.setWidth 32) (f.word old) =
      some (if f.holds cond then 1 else 0) := by
  obtain ⟨hn, hz, hc, hv⟩ := getLsbD_word_flags f old
  have hn' : f.word old &&& 0x80000000#32 ≠ 0 ↔ f.n = true := hn ▸ and_bit _ 31
  have hz' : f.word old &&& 0x40000000#32 ≠ 0 ↔ f.z = true := hz ▸ and_bit _ 30
  have hc' : f.word old &&& 0x20000000#32 ≠ 0 ↔ f.c = true := hc ▸ and_bit _ 29
  have hv' : f.word old &&& 0x10000000#32 ≠ 0 ↔ f.v = true := hv ▸ and_bit _ 28
  unfold arm64_hlp_compute_flags_pred flags.holds
  simp only [hn', hz', hc', hv', shift_bit, hn, hz, hv]
  -- what is left depends on the condition and on four flags
  generalize f.n = n
  generalize f.z = z
  generalize f.c = c
  generalize f.v = v
  clear * -
  revert n z c v cond
  decide +kernel

/-- The helpers set the flags that the architecture defines, whatever `nzcv` was, and after a
    comparison a condition holds when the comparison that it is named for does. -/
theorem nzcv_is_add_with_carry :
    (∀ (ops : ops) (op1 op2 old : BitVec 32), arm64_hlp_compute_next_nzcv_32 ops op1 op2 old =
      (ops.flags op1 op2 (old.getLsbD 29)).word old) ∧
    (∀ (ops : ops) (op1 op2 : BitVec 64) (old : BitVec 32),
      arm64_hlp_compute_next_nzcv_64 ops op1 op2 old =
        (ops.flags op1 op2 (old.getLsbD 29)).word old) ∧
    (∀ (cond : BitVec 4) (a b old : BitVec 32), arm64_hlp_compute_flags_pred (cond.setWidth 32)
        (arm64_hlp_compute_next_nzcv_32 .OPS_SUB a b old) =
      some (if compares cond a b then 1 else 0)) ∧
    (∀ (cond : BitVec 4) (a b : BitVec 64) (old : BitVec 32),
      arm64_hlp_compute_flags_pred (cond.setWidth 32)
        (arm64_hlp_compute_next_nzcv_64 .OPS_SUB a b old) =
      some (if compares cond a b then 1 else 0)) := by
  refine ⟨next_nzcv_32, next_nzcv_64, ?_, ?_⟩
  · intro cond a b old
    rw [next_nzcv_32, flags_pred_word, ops.flags, holds_sub a b (by decide)]
  · intro cond a b old
    rw [next_nzcv_64, flags_pred_word, ops.flags, holds_sub a b (by decide)]

end Umeq.Arm64
