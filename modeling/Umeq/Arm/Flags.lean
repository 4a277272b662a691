import Umeq.Lib.AddWithCarry
import Umeq.Lib.Shifts
import Mathlib.Tactic.FinCases

/-! # The flags of `arm_helpers.c`

    Four helpers compute the next `cpsr`: one for the ARM data-processing instructions,
    one for the 16-bit Thumb data-processing instructions, one for the other 16-bit
    instructions that set flags, and one for the 32-bit Thumb data-processing instructions.
    Each has its own numbering of the operations.

    * `next_flags_eq`: the ARM helper and the architecture.
    * `thumb_data_processing`, `thumb_next_flags`, `thumb_t2_modified`: the ARM operation
      that an operation of a Thumb helper stands for.
-/

namespace Umeq.Arm

open AddWithCarry Shifts

/-! ## The helpers -/

/-- What the four helpers end with. -/
def next_cpsr (calc_ c v oldcpsr : BitVec 32) : BitVec 32 :=
  let n := calc_ &&& 0x80000000#32
  let z := if calc_ = 0 then 0x40000000#32 else 0#32
  n ||| z ||| c ||| v ||| (oldcpsr &&& 0x0fffffff#32)

/-- A flag at its place in `cpsr`. -/
def carry_flag (c : Prop) [Decidable c] : BitVec 32 := if c then 0x20000000#32 else 0#32

def overflow_flag (x : BitVec 32) : BitVec 32 := (x >>> 3) &&& 0x10000000#32

def arm_hlp_compute_next_flags (opcode_and_shifter_carry_out rn op oldcpsr : BitVec 32) : BitVec 32 :=
  let op1 := rn
  let op2 := op
  let c_in := (oldcpsr >>> 29) &&& 1#32
  let opcode := opcode_and_shifter_carry_out &&& 0xf#32
  let shifter_carry_out := opcode_and_shifter_carry_out &&& 0x20000000#32
  let v := oldcpsr &&& 0x10000000#32
  match opcode.toNat with
  | 0 | 8 => next_cpsr (rn &&& op) shifter_carry_out v oldcpsr
  | 1 => next_cpsr (rn ^^^ op) shifter_carry_out v oldcpsr
  | 2 | 10 =>
    let calc_ := rn - op
    next_cpsr calc_ (carry_flag (op2 ≤ op1)) (overflow_flag ((op1 ^^^ op2) &&& (op1 ^^^ calc_))) oldcpsr
  | 3 =>
    let calc_ := op - rn
    next_cpsr calc_ (carry_flag (op1 ≤ op2)) (overflow_flag ((op2 ^^^ op1) &&& (op2 ^^^ calc_))) oldcpsr
  | 5 =>
    let calc_ := rn + op + c_in
    next_cpsr calc_ (if c_in ≠ 0 then carry_flag (calc_ ≤ op1) else carry_flag (calc_ < op1))
      (overflow_flag ((calc_ ^^^ op1) &&& (calc_ ^^^ op2))) oldcpsr
  | 6 =>
    let calc_ := rn + ~~~ op + c_in
    next_cpsr calc_ (if c_in ≠ 0 then carry_flag (calc_ ≤ op1) else carry_flag (calc_ < op1))
      (overflow_flag ((op1 ^^^ op2) &&& (op1 ^^^ calc_))) oldcpsr
  | 7 =>
    let calc_ := op + ~~~ rn + c_in
    next_cpsr calc_ (if c_in ≠ 0 then carry_flag (calc_ ≤ op2) else carry_flag (calc_ < op2))
      (overflow_flag ((op2 ^^^ op1) &&& (op2 ^^^ calc_))) oldcpsr
  | 9 => next_cpsr (rn ^^^ op) shifter_carry_out v oldcpsr
  | 4 | 11 =>
    let calc_ := rn + op
    next_cpsr calc_ (carry_flag (calc_ < op1)) (overflow_flag ((calc_ ^^^ op1) &&& (calc_ ^^^ op2)))
      oldcpsr
  | 12 => next_cpsr (rn ||| op) shifter_carry_out v oldcpsr
  | 13 => next_cpsr op shifter_carry_out v oldcpsr
  | 14 => next_cpsr (rn &&& ~~~ op) shifter_carry_out v oldcpsr
  -- 15: the opcode has four bits
  | _ => next_cpsr (~~~ op) shifter_carry_out v oldcpsr

/-- `none` is the failed assert of an opcode that is not there. -/
def thumb_hlp_compute_next_flags_data_processing (opcode rn op oldcpsr : BitVec 32) :
    Option (BitVec 32) :=
  let op1 := rn
  let op2 := op
  let c_in := (oldcpsr >>> 29) &&& 1#32
  let c := oldcpsr &&& 0x20000000#32
  let v := oldcpsr &&& 0x10000000#32
  match opcode.toNat with
  | 0 => some (next_cpsr (rn &&& op) c v oldcpsr)
  | 1 => some (next_cpsr (rn ^^^ op) c v oldcpsr)
  | 2 => -- lsl
    let op2 := (op2 &&& 0xff#32).toNat
    let last := (host_shl op1 (op2 - 1) >>> 2) &&& 0x20000000#32
    if op2 = 0 then some (next_cpsr op1 c v oldcpsr)
    else if op2 < 32 then some (next_cpsr (host_shl op1 op2) last v oldcpsr)
    else if op2 = 32 then some (next_cpsr 0 last v oldcpsr)
    else some (next_cpsr 0 0 v oldcpsr)
  | 3 => -- lsr
    let op2 := (op2 &&& 0xff#32).toNat
    let last := (host_shr op1 (op2 - 1) <<< 29) &&& 0x20000000#32
    if op2 = 0 then some (next_cpsr op1 c v oldcpsr)
    else if op2 < 32 then some (next_cpsr (host_shr op1 op2) last v oldcpsr)
    else if op2 = 32 then some (next_cpsr 0 last v oldcpsr)
    else some (next_cpsr 0 0 v oldcpsr)
  | 4 => -- asr
    let ops := op1
    let op2 := (op2 &&& 0xff#32).toNat
    if op2 = 0 then some (next_cpsr op1 c v oldcpsr)
    else if op2 < 32 then
      some (next_cpsr (host_sar ops op2) ((host_sar ops (op2 - 1) <<< 29) &&& 0x20000000#32) v oldcpsr)
    else some (next_cpsr (host_sar ops 31) ((host_sar ops (32 - 1) <<< 29) &&& 0x20000000#32) v oldcpsr)
  | 5 =>
    let calc_ := rn + op + c_in
    some (next_cpsr calc_ (if c_in ≠ 0 then carry_flag (calc_ ≤ op1) else carry_flag (calc_ < op1))
      (overflow_flag ((calc_ ^^^ op1) &&& (calc_ ^^^ op2))) oldcpsr)
  | 6 =>
    let calc_ := rn + ~~~ op + c_in
    some (next_cpsr calc_ (if c_in ≠ 0 then carry_flag (calc_ ≤ op1) else carry_flag (calc_ < op1))
      (overflow_flag ((op1 ^^^ op2) &&& (op1 ^^^ calc_))) oldcpsr)
  | 7 => -- ror
    let op2 := op2 &&& 0xff#32
    if op2 = 0 then some (next_cpsr op1 c v oldcpsr)
    else if op2 &&& 0x1f#32 = 0 then some (next_cpsr op1 ((op1 >>> 2) &&& 0x20000000#32) v oldcpsr)
    else
      let op2 := (op2 &&& 0x1f#32).toNat
      some (next_cpsr (host_shr op1 op2 ||| host_shl op1 (32 - op2))
        ((host_shr op1 (op2 - 1) <<< 29) &&& 0x20000000#32) v oldcpsr)
  | 8 => some (next_cpsr (rn &&& op) c v oldcpsr)
  | 9 => -- rsb
    let calc_ := - op2
    some (next_cpsr calc_ (carry_flag (op2 ≤ 0)) (overflow_flag ((0 ^^^ op2) &&& (0 ^^^ calc_))) oldcpsr)
  | 10 =>
    let calc_ := rn - op
    some (next_cpsr calc_ (carry_flag (op2 ≤ op1)) (overflow_flag ((op1 ^^^ op2) &&& (op1 ^^^ calc_)))
      oldcpsr)
  | 11 =>
    let calc_ := rn + op
    some (next_cpsr calc_ (carry_flag (calc_ < op1))
      (overflow_flag ((calc_ ^^^ op1) &&& (calc_ ^^^ op2))) oldcpsr)
  | 12 => some (next_cpsr (rn ||| op) c v oldcpsr)
  | 13 => some (next_cpsr (op1 * op2) c v oldcpsr)
  | 14 => some (next_cpsr (rn &&& ~~~ op) c v oldcpsr)
  | 15 => some (next_cpsr (~~~ op) c v oldcpsr)
  | _ => none

def thumb_hlp_compute_next_flags (opcode_and_shifter_carry_out rn op oldcpsr : BitVec 32) : BitVec 32 :=
  let op1 := rn
  let op2 := op
  let opcode := (opcode_and_shifter_carry_out &&& 0x1f#32).toNat
  let shifter_carry_out := opcode_and_shifter_carry_out &&& 0x20000000#32
  let v := oldcpsr &&& 0x10000000#32
  if opcode = 12 ∨ opcode = 14 ∨ 24 ≤ opcode ∧ opcode ≤ 27 then
    let calc_ := rn + op
    next_cpsr calc_ (carry_flag (calc_ < op1)) (overflow_flag ((calc_ ^^^ op1) &&& (calc_ ^^^ op2)))
      oldcpsr
  else if opcode ≤ 11 ∨ 16 ≤ opcode ∧ opcode ≤ 19 then
    let calc_ := op
    next_cpsr calc_ shifter_carry_out v oldcpsr
  else
    -- 13, 15, 20 to 23 and 28 to 31: the opcode has five bits
    let calc_ := rn - op
    next_cpsr calc_ (carry_flag (op2 ≤ op1)) (overflow_flag ((op1 ^^^ op2) &&& (op1 ^^^ calc_))) oldcpsr

/-- `none` is the failed assert of an opcode that is not there. -/
def thumb_hlp_t2_modified_compute_next_flags (opcode_and_shifter_carry_out rn op oldcpsr : BitVec 32) :
    Option (BitVec 32) :=
  let op1 := rn
  let op2 := op
  let c_in := (oldcpsr >>> 29) &&& 1#32
  let opcode := opcode_and_shifter_carry_out &&& 0xf#32
  let shifter_carry_out := opcode_and_shifter_carry_out &&& 0x20000000#32
  let v := oldcpsr &&& 0x10000000#32
  match opcode.toNat with
  | 0 => some (next_cpsr (rn &&& op) shifter_carry_out v oldcpsr)
  | 1 => some (next_cpsr (rn &&& ~~~ op) shifter_carry_out v oldcpsr)
  | 2 => some (next_cpsr (rn ||| op) shifter_carry_out v oldcpsr)
  | 3 => some (next_cpsr (rn ||| ~~~ op) shifter_carry_out v oldcpsr)
  | 4 => some (next_cpsr (rn ^^^ op) shifter_carry_out v oldcpsr)
  | 8 =>
    let calc_ := rn + op
    some (next_cpsr calc_ (carry_flag (calc_ < op1))
      (overflow_flag ((calc_ ^^^ op1) &&& (calc_ ^^^ op2))) oldcpsr)
  | 10 =>
    let calc_ := rn + op + c_in
    some (next_cpsr calc_ (if c_in ≠ 0 then carry_flag (calc_ ≤ op1) else carry_flag (calc_ < op1))
      (overflow_flag ((calc_ ^^^ op1) &&& (calc_ ^^^ op2))) oldcpsr)
  | 11 =>
    let calc_ := rn + ~~~ op + c_in
    some (next_cpsr calc_ (if c_in ≠ 0 then carry_flag (calc_ ≤ op1) else carry_flag (calc_ < op1))
      (overflow_flag ((op1 ^^^ op2) &&& (op1 ^^^ calc_))) oldcpsr)
  | 13 =>
    let calc_ := rn - op
    some (next_cpsr calc_ (carry_flag (op2 ≤ op1)) (overflow_flag ((op1 ^^^ op2) &&& (op1 ^^^ calc_)))
      oldcpsr)
  | 14 =>
    let calc_ := op - rn
    some (next_cpsr calc_ (carry_flag (op1 ≤ op2)) (overflow_flag ((op2 ^^^ op1) &&& (op2 ^^^ calc_)))
      oldcpsr)
  | _ => none

/-! ## The architecture -/

inductive data_op where
  | AND | EOR | SUB | RSB | ADD | ADC | SBC | RSC | TST | TEQ | CMP | CMN | ORR | MOV | BIC | MVN
  deriving DecidableEq, Repr

/-- The field `opcode` of a data-processing instruction. -/
def data_op.ofCode (code : BitVec 4) : data_op :=
  match code.toNat with
  | 0 => .AND | 1 => .EOR | 2 => .SUB | 3 => .RSB | 4 => .ADD | 5 => .ADC | 6 => .SBC | 7 => .RSC
  | 8 => .TST | 9 => .TEQ | 10 => .CMP | 11 => .CMN | 12 => .ORR | 13 => .MOV | 14 => .BIC | _ => .MVN

def data_op.code : data_op → BitVec 32
  | .AND => 0 | .EOR => 1 | .SUB => 2 | .RSB => 3 | .ADD => 4 | .ADC => 5 | .SBC => 6 | .RSC => 7
  | .TST => 8 | .TEQ => 9 | .CMP => 10 | .CMN => 11 | .ORR => 12 | .MOV => 13 | .BIC => 14 | .MVN => 15

/-- The flags of a data-processing instruction: `sco` is the carry of the shifter, `c` and `v`
    are the flags that are there before. -/
def data_op.flags (o : data_op) (rn op : BitVec 32) (sco c v : Bool) : flags :=
  match o with
  | .AND | .TST => logical (rn &&& op) sco v
  | .EOR | .TEQ => logical (rn ^^^ op) sco v
  | .SUB | .CMP => (add rn (~~~ op) true).2
  | .RSB => (add (~~~ rn) op true).2
  | .ADD | .CMN => (add rn op false).2
  | .ADC => (add rn op c).2
  | .SBC => (add rn (~~~ op) c).2
  | .RSC => (add (~~~ rn) op c).2
  | .ORR => logical (rn ||| op) sco v
  | .MOV => logical op sco v
  | .BIC => logical (rn &&& ~~~ op) sco v
  | .MVN => logical (~~~ op) sco v

/-- An operation of a Thumb helper as an ARM data-processing instruction, with its operands
    and the carry of its shifter. -/
structure arm_form where
  o : data_op
  rn : BitVec 32
  op : BitVec 32
  sco : Bool

/-- The flags that the ARM helper gives. -/
def arm_form.next_flags (f : arm_form) (oldcpsr : BitVec 32) : BitVec 32 :=
  arm_hlp_compute_next_flags (f.o.code ||| if f.sco then 0x20000000#32 else 0#32) f.rn f.op oldcpsr

/-- The 16-bit data-processing instructions. A shift is a move of the shifted register, and a
    product is moved as it is. -/
def thumb_data_processing_form (opcode : BitVec 4) (rn op : BitVec 32) (c : Bool) : arm_form :=
  let moved (r : BitVec 32 × Bool) : arm_form := ⟨.MOV, rn, r.1, r.2⟩
  let amount := (op &&& 0xff#32).toNat
  match opcode.toNat with
  | 0 => ⟨.AND, rn, op, c⟩
  | 1 => ⟨.EOR, rn, op, c⟩
  | 2 => moved (Shift_C rn .LSL amount c)
  | 3 => moved (Shift_C rn .LSR amount c)
  | 4 => moved (Shift_C rn .ASR amount c)
  | 5 => ⟨.ADC, rn, op, c⟩
  | 6 => ⟨.SBC, rn, op, c⟩
  | 7 => moved (Shift_C rn .ROR amount c)
  | 8 => ⟨.TST, rn, op, c⟩
  | 9 => ⟨.RSB, op, 0, c⟩
  | 10 => ⟨.CMP, rn, op, c⟩
  | 11 => ⟨.CMN, rn, op, c⟩
  | 12 => ⟨.ORR, rn, op, c⟩
  | 13 => moved (rn * op, c)
  | 14 => ⟨.BIC, rn, op, c⟩
  | _ => ⟨.MVN, rn, op, c⟩

/-- The other 16-bit instructions. -/
def thumb_form (opcode : BitVec 5) (rn op : BitVec 32) (sco : Bool) : arm_form :=
  match opcode.toNat with
  | 12 | 14 | 24 | 25 | 26 | 27 => ⟨.ADD, rn, op, sco⟩
  | 13 | 15 | 28 | 29 | 30 | 31 => ⟨.SUB, rn, op, sco⟩
  | 20 | 21 | 22 | 23 => ⟨.CMP, rn, op, sco⟩
  | _ => ⟨.MOV, rn, op, sco⟩

/-- The 32-bit data-processing instructions. There is no ORN in the ARM instructions: it is an
    ORR with the complement. -/
def thumb_t2_form (opcode : BitVec 4) (rn op : BitVec 32) (sco : Bool) : Option arm_form :=
  match opcode.toNat with
  | 0 => some ⟨.AND, rn, op, sco⟩
  | 1 => some ⟨.BIC, rn, op, sco⟩
  | 2 => some ⟨.ORR, rn, op, sco⟩
  | 3 => some ⟨.ORR, rn, ~~~ op, sco⟩
  | 4 => some ⟨.EOR, rn, op, sco⟩
  | 8 => some ⟨.ADD, rn, op, sco⟩
  | 10 => some ⟨.ADC, rn, op, sco⟩
  | 11 => some ⟨.SBC, rn, op, sco⟩
  | 13 => some ⟨.SUB, rn, op, sco⟩
  | 14 => some ⟨.RSB, rn, op, sco⟩
  | _ => none

/-! ## The ARM helper -/

section arm

variable (rn op old : BitVec 32)

/-- The carry and the overflow are taken from other words. -/
theorem next_cpsr_logical (r w : BitVec 32) :
    next_cpsr r (w &&& 0x20000000#32) (old &&& 0x10000000#32) old =
      (logical r (w.getLsbD 29) (old.getLsbD 28)).word old := by
  have hc : w &&& 0x20000000#32 = if w.getLsbD 29 then 0x20000000#32 else 0#32 :=
    BitVec.and_twoPow w 29
  have hv : old &&& 0x10000000#32 = if old.getLsbD 28 then 0x10000000#32 else 0#32 :=
    BitVec.and_twoPow old 28
  rw [hc, hv]
  exact word_logical_32 old r _ _

theorem next_cpsr_add : next_cpsr (rn + op) (carry_flag (rn + op < rn))
    (overflow_flag ((rn + op ^^^ rn) &&& (rn + op ^^^ op))) old = (add rn op false).2.word old := by
  rw [add_flags (by decide)]
  exact word_32 _ old _ _

theorem next_cpsr_sub : next_cpsr (rn - op) (carry_flag (op ≤ rn))
    (overflow_flag ((rn ^^^ op) &&& (rn ^^^ (rn - op)))) old = (add rn (~~~ op) true).2.word old := by
  rw [← sub, sub_flags (by decide)]
  exact word_32 _ old _ _

theorem next_cpsr_adc (c_in : BitVec 32) (hin : c_in = (old >>> 29) &&& 1#32) :
    next_cpsr (rn + op + c_in)
      (if c_in ≠ 0 then carry_flag (rn + op + c_in ≤ rn) else carry_flag (rn + op + c_in < rn))
      (overflow_flag ((rn + op + c_in ^^^ rn) &&& (rn + op + c_in ^^^ op))) old =
      (add rn op (old.getLsbD 29)).2.word old := by
  rw [adc_flags (by decide)]
  subst hin
  simp only [carry_in_32, carry_flag, carry_choice]
  exact word_32 _ old _ _

theorem next_cpsr_sbc (c_in : BitVec 32) (hin : c_in = (old >>> 29) &&& 1#32) :
    next_cpsr (rn + ~~~ op + c_in)
      (if c_in ≠ 0 then carry_flag (rn + ~~~ op + c_in ≤ rn) else carry_flag (rn + ~~~ op + c_in < rn))
      (overflow_flag ((rn ^^^ op) &&& (rn ^^^ (rn + ~~~ op + c_in)))) old =
      (add rn (~~~ op) (old.getLsbD 29)).2.word old := by
  rw [sbc_flags (by decide)]
  subst hin
  simp only [carry_in_32, carry_flag, carry_choice]
  exact word_32 _ old _ _

/-- The low bits of a word that has an opcode and a carry in it. -/
theorem toNat_opcode (w : BitVec 32) : (w &&& 0xf#32).toNat = (w.setWidth 4).toNat := by
  rw [BitVec.toNat_and, BitVec.toNat_setWidth]
  exact Nat.and_two_pow_sub_one_eq_mod w.toNat 4

/-- The ARM helper computes the flags of the architecture and leaves the other bits of `cpsr`. -/
theorem next_flags_eq (w : BitVec 32) : arm_hlp_compute_next_flags w rn op old =
    ((data_op.ofCode (w.setWidth 4)).flags rn op (w.getLsbD 29) (old.getLsbD 29)
      (old.getLsbD 28)).word old := by
  have hlt := (w.setWidth 4).isLt
  unfold arm_hlp_compute_next_flags data_op.ofCode
  simp only [toNat_opcode]
  generalize (w.setWidth 4).toNat = k at *
  match k, hlt with
  | 0, _ | 1, _ | 8, _ | 9, _ | 12, _ | 13, _ | 14, _ | 15, _ => exact next_cpsr_logical old _ w
  | 2, _ | 10, _ => exact next_cpsr_sub rn op old
  | 3, _ =>
    change _ = (add (~~~ rn) op true).2.word old
    rw [AddWithCarry.add_comm]
    exact next_cpsr_sub op rn old
  | 4, _ | 11, _ => exact next_cpsr_add rn op old
  | 5, _ => exact next_cpsr_adc rn op old _ rfl
  | 6, _ => exact next_cpsr_sbc rn op old _ rfl
  | 7, _ =>
    change _ = (add (~~~ rn) op (old.getLsbD 29)).2.word old
    rw [AddWithCarry.add_comm]
    exact next_cpsr_sbc op rn old _ rfl
  | k + 16, hlt => exact absurd hlt (by simp)

theorem form_next_flags (f : arm_form) : f.next_flags old =
    (f.o.flags f.rn f.op f.sco (old.getLsbD 29) (old.getLsbD 28)).word old := by
  obtain ⟨o, rn, op, sco⟩ := f
  have hword : data_op.ofCode ((o.code ||| if sco then 0x20000000#32 else 0#32).setWidth 4) = o ∧
      (o.code ||| if sco then 0x20000000#32 else 0#32).getLsbD 29 = sco := by
    cases o <;> cases sco <;> decide
  rw [arm_form.next_flags, next_flags_eq, hword.1, hword.2]

end arm

/-! ## The Thumb helpers -/

section thumb

variable (rn op old : BitVec 32)

/-- One bit of a word, moved to the place of the carry. -/
theorem carry_from_top (x : BitVec 32) :
    (x >>> 2) &&& 0x20000000#32 = if x.getLsbD 31 then 0x20000000#32 else 0#32 := by
  have h := BitVec.and_twoPow (x >>> 2) 29
  rwa [BitVec.getLsbD_ushiftRight] at h

theorem carry_from_bottom (x : BitVec 32) :
    (x <<< 29) &&& 0x20000000#32 = if x.getLsbD 0 then 0x20000000#32 else 0#32 := by
  have h := BitVec.and_twoPow (x <<< 29) 29
  have hbit : (x <<< 29).getLsbD 29 = x.getLsbD 0 := by simp
  rw [hbit] at h
  exact h

/-- The last bit that a shift by 1 to 32 moves out, found by a shift by one less. -/
theorem lsl_last (x : BitVec 32) {n : Nat} (hn : 0 < n) (hle : n ≤ 32) :
    (host_shl x (n - 1) >>> 2) &&& 0x20000000#32 =
      if (LSL_C x n).2 then 0x20000000#32 else 0#32 := by
  rw [host_shl_of_lt x (by omega), carry_from_top, LSL_C_carry, BitVec.getLsbD_shiftLeft]
  have hlt : ¬ 31 < n - 1 := by omega
  have hsub : 31 - (n - 1) = 32 - n := by omega
  simp [hlt, hsub, hle]

theorem lsr_last (x : BitVec 32) {n : Nat} (hn : 0 < n) (hle : n ≤ 32) :
    (host_shr x (n - 1) <<< 29) &&& 0x20000000#32 =
      if (LSR_C x n).2 then 0x20000000#32 else 0#32 := by
  rw [host_shr_of_lt x (by omega), carry_from_bottom, LSR_C_carry x n hn, BitVec.getLsbD_ushiftRight,
    Nat.add_zero]

theorem asr_last (x : BitVec 32) {n : Nat} (hn : 0 < n) (hle : n ≤ 32) :
    (host_sar x (n - 1) <<< 29) &&& 0x20000000#32 =
      if (ASR_C x n).2 then 0x20000000#32 else 0#32 := by
  rw [host_sar_of_lt x (by omega), carry_from_bottom, ASR_C_carry x n hn, BitVec.getLsbD_sshiftRight,
    Nat.add_zero]
  simp

/-- A shift by 31 leaves the sign everywhere too. -/
theorem host_sar_31 (x : BitVec 32) : host_sar x 31 = x.sshiftRight 32 := by
  rw [host_sar_of_lt x (by decide)]
  apply BitVec.eq_of_getLsbD_eq
  intro i hi
  rw [BitVec.getLsbD_sshiftRight, BitVec.getLsbD_sshiftRight, BitVec.msb_eq_getLsbD_last]
  by_cases h0 : i = 0
  · subst h0
    simp
  · rw [if_neg (by omega), if_neg (by omega)]

/-- From 32 on an arithmetic shift leaves the sign everywhere. -/
theorem ASR_C_large (x : BitVec 32) {n : Nat} (hn : 32 ≤ n) : ASR_C x n = ASR_C x 32 := by
  have hresult : x.sshiftRight n = x.sshiftRight 32 := by
    apply BitVec.eq_of_getLsbD_eq
    intro i hi
    rw [BitVec.getLsbD_sshiftRight, BitVec.getLsbD_sshiftRight, if_neg (by omega), if_neg (by omega)]
  have hcarry : (ASR_C x n).2 = (ASR_C x 32).2 := by
    rw [ASR_C_carry x n (by omega), ASR_C_carry x 32 (by decide), BitVec.msb_eq_getLsbD_last]
    split_ifs
    · rw [show n - 1 = 32 - 1 by omega]
    · omega
    · rfl
    · rfl
  exact Prod.ext (by rw [ASR_C_result, ASR_C_result, hresult]) hcarry

/-- A result and a carry that have been computed. -/
theorem next_cpsr_moved {r c : BitVec 32} {value : BitVec 32 × Bool} (hr : r = value.1)
    (hc : c = if value.2 then 0x20000000#32 else 0#32) : next_cpsr r c (old &&& 0x10000000#32) old =
      (data_op.MOV.flags rn value.1 value.2 (old.getLsbD 29) (old.getLsbD 28)).word old := by
  have hv : old &&& 0x10000000#32 = if old.getLsbD 28 then 0x10000000#32 else 0#32 :=
    BitVec.and_twoPow old 28
  rw [hr, hc, hv]
  exact word_logical_32 old value.1 value.2 _

theorem carry_of (w : BitVec 32) :
    w &&& 0x20000000#32 = if w.getLsbD 29 then 0x20000000#32 else 0#32 := BitVec.and_twoPow w 29

/-- The flags of a shifted value that is moved. -/
def moved_flags (value : BitVec 32 × Bool) : BitVec 32 :=
  (data_op.MOV.flags rn value.1 value.2 (old.getLsbD 29) (old.getLsbD 28)).word old

theorem thumb_lsl : thumb_hlp_compute_next_flags_data_processing 2 rn op old =
    some (moved_flags rn old (Shift_C rn .LSL (op &&& 0xff#32).toNat (old.getLsbD 29))) := by
  change (if _ then _ else _) = _
  unfold Shift_C
  generalize (op &&& 0xff#32).toNat = n
  by_cases h0 : n = 0
  · rw [if_pos h0, if_pos h0]
    exact congrArg some (next_cpsr_moved rn old rfl (carry_of old))
  rw [if_neg h0, if_neg h0]
  by_cases hlt : n < 32
  · rw [if_pos hlt]
    refine congrArg some (next_cpsr_moved rn old ?_ (lsl_last rn (by omega) (by omega)))
    rw [LSL_C_result, host_shl_of_lt rn hlt]
  rw [if_neg hlt]
  have hzero : 0#32 = (LSL_C rn n).1 := by
    rw [LSL_C_result, BitVec.shiftLeft_eq_zero (by omega)]
  by_cases heq : n = 32
  · rw [if_pos heq]
    exact congrArg some (next_cpsr_moved rn old hzero (lsl_last rn (by omega) (by omega)))
  · rw [if_neg heq]
    refine congrArg some (next_cpsr_moved rn old hzero ?_)
    rw [LSL_C_carry, decide_eq_false (by omega : ¬ n ≤ 32)]
    rfl

theorem thumb_lsr : thumb_hlp_compute_next_flags_data_processing 3 rn op old =
    some (moved_flags rn old (Shift_C rn .LSR (op &&& 0xff#32).toNat (old.getLsbD 29))) := by
  change (if _ then _ else _) = _
  unfold Shift_C
  generalize (op &&& 0xff#32).toNat = n
  by_cases h0 : n = 0
  · rw [if_pos h0, if_pos h0]
    exact congrArg some (next_cpsr_moved rn old rfl (carry_of old))
  rw [if_neg h0, if_neg h0]
  by_cases hlt : n < 32
  · rw [if_pos hlt]
    refine congrArg some (next_cpsr_moved rn old ?_ (lsr_last rn (by omega) (by omega)))
    rw [LSR_C_result, host_shr_of_lt rn hlt]
  rw [if_neg hlt]
  have hzero : 0#32 = (LSR_C rn n).1 := by
    rw [LSR_C_result, BitVec.ushiftRight_eq_zero (by omega)]
  by_cases heq : n = 32
  · rw [if_pos heq]
    exact congrArg some (next_cpsr_moved rn old hzero (lsr_last rn (by omega) (by omega)))
  · rw [if_neg heq]
    refine congrArg some (next_cpsr_moved rn old hzero ?_)
    rw [LSR_C_carry rn n (by omega), BitVec.getLsbD_of_ge rn (n - 1) (by omega)]
    rfl

theorem thumb_asr : thumb_hlp_compute_next_flags_data_processing 4 rn op old =
    some (moved_flags rn old (Shift_C rn .ASR (op &&& 0xff#32).toNat (old.getLsbD 29))) := by
  change (if _ then _ else _) = _
  unfold Shift_C
  generalize (op &&& 0xff#32).toNat = n
  by_cases h0 : n = 0
  · rw [if_pos h0, if_pos h0]
    exact congrArg some (next_cpsr_moved rn old rfl (carry_of old))
  rw [if_neg h0, if_neg h0]
  by_cases hlt : n < 32
  · rw [if_pos hlt]
    refine congrArg some (next_cpsr_moved rn old ?_ (asr_last rn (by omega) (by omega)))
    rw [ASR_C_result, host_sar_of_lt rn hlt]
  · rw [if_neg hlt]
    simp only [ASR_C_large rn (Nat.le_of_not_lt hlt)]
    refine congrArg some (next_cpsr_moved rn old ?_ (asr_last rn (by decide) (by decide)))
    rw [ASR_C_result]
    exact host_sar_31 rn

/-- A rotation by the low five bits of an amount; a multiple of 32 leaves the word. -/
theorem ror_zero (x : BitVec 32) {n : Nat} (h : n % 32 = 0) : (ROR_C x n).1 = x ∧
    (ROR_C x n).2 = x.getLsbD 31 := by
  rw [ROR_C_carry x n (by decide), if_pos h, BitVec.msb_eq_getLsbD_last]
  refine ⟨?_, rfl⟩
  simp [ROR_C, h]

theorem ror_last (x : BitVec 32) {n : Nat} (h : n % 32 ≠ 0) :
    (ROR_C x n).1 = host_shr x (n % 32) ||| host_shl x (32 - n % 32) ∧
    (host_shr x (n % 32 - 1) <<< 29) &&& 0x20000000#32 =
      if (ROR_C x n).2 then 0x20000000#32 else 0#32 := by
  have hlt := Nat.mod_lt n (show 0 < 32 by decide)
  rw [host_shr_of_lt x hlt, host_shl_of_lt x (by omega), host_shr_of_lt x (by omega),
    carry_from_bottom, ROR_C_carry x n (by decide), if_neg h, BitVec.getLsbD_ushiftRight, Nat.add_zero]
  exact ⟨rfl, rfl⟩

theorem toNat_amount (x : BitVec 32) : (x &&& 0x1f#32).toNat = x.toNat % 32 := by
  rw [BitVec.toNat_and]
  exact Nat.and_two_pow_sub_one_eq_mod x.toNat 5

theorem thumb_ror : thumb_hlp_compute_next_flags_data_processing 7 rn op old =
    some (moved_flags rn old (Shift_C rn .ROR (op &&& 0xff#32).toNat (old.getLsbD 29))) := by
  change (if _ then _ else _) = _
  unfold Shift_C
  simp only [toNat_amount]
  by_cases h0 : op &&& 0xff#32 = 0
  · rw [if_pos h0, if_pos (by rw [h0]; rfl)]
    exact congrArg some (next_cpsr_moved rn old rfl (carry_of old))
  have hne : (op &&& 0xff#32).toNat ≠ 0 := fun h => h0 (BitVec.eq_of_toNat_eq h)
  rw [if_neg h0, if_neg hne]
  have hmod : (op &&& 0xff#32) &&& 0x1f#32 = 0 ↔ (op &&& 0xff#32).toNat % 32 = 0 := by
    rw [← toNat_amount, ← BitVec.toNat_inj]
    rfl
  by_cases h1 : (op &&& 0xff#32) &&& 0x1f#32 = 0
  · rw [if_pos h1]
    obtain ⟨hresult, hcarry⟩ := ror_zero rn (hmod.mp h1)
    exact congrArg some (next_cpsr_moved rn old hresult.symm (by rw [hcarry, carry_from_top]))
  · rw [if_neg h1]
    obtain ⟨hresult, hlast⟩ := ror_last rn (fun h => h1 (hmod.mpr h))
    exact congrArg some (next_cpsr_moved rn old hresult.symm hlast)

theorem thumb_data_processing (opcode : BitVec 4) :
    thumb_hlp_compute_next_flags_data_processing (opcode.setWidth 32) rn op old =
      some ((thumb_data_processing_form opcode rn op (old.getLsbD 29)).next_flags old) := by
  rw [form_next_flags]
  obtain ⟨k, rfl⟩ : ∃ k : Fin 16, opcode = BitVec.ofFin k := ⟨opcode.toFin, rfl⟩
  fin_cases k
  case «2» => exact thumb_lsl rn op old
  case «3» => exact thumb_lsr rn op old
  case «4» => exact thumb_asr rn op old
  case «7» => exact thumb_ror rn op old
  all_goals refine congrArg some ?_
  case «5» => exact next_cpsr_adc rn op old _ rfl
  case «6» => exact next_cpsr_sbc rn op old _ rfl
  case «9» =>
    change _ = (add (~~~ op) 0 true).2.word old
    rw [AddWithCarry.add_comm, ← next_cpsr_sub, show 0 - op = - op from BitVec.zero_sub op]
  case «10» => exact next_cpsr_sub rn op old
  case «11» => exact next_cpsr_add rn op old
  all_goals exact next_cpsr_logical old _ old

/-- The low bits of a word that has a 16-bit opcode and a carry in it. -/
theorem toNat_opcode_5 (w : BitVec 32) : (w &&& 0x1f#32).toNat = (w.setWidth 5).toNat := by
  rw [toNat_amount, BitVec.toNat_setWidth]

theorem thumb_next_flags (w : BitVec 32) : thumb_hlp_compute_next_flags w rn op old =
    (thumb_form (w.setWidth 5) rn op (w.getLsbD 29)).next_flags old := by
  rw [form_next_flags]
  unfold thumb_hlp_compute_next_flags
  simp only [toNat_opcode_5]
  obtain ⟨k, hk⟩ : ∃ k : Fin 32, w.setWidth 5 = BitVec.ofFin k := ⟨(w.setWidth 5).toFin, rfl⟩
  rw [hk]
  fin_cases k
  all_goals first
    | exact next_cpsr_logical old op w
    | exact next_cpsr_add rn op old
    | exact next_cpsr_sub rn op old

theorem thumb_t2_modified (w : BitVec 32) : thumb_hlp_t2_modified_compute_next_flags w rn op old =
    (thumb_t2_form (w.setWidth 4) rn op (w.getLsbD 29)).map fun f => f.next_flags old := by
  simp only [form_next_flags]
  unfold thumb_hlp_t2_modified_compute_next_flags
  simp only [toNat_opcode]
  obtain ⟨k, hk⟩ : ∃ k : Fin 16, w.setWidth 4 = BitVec.ofFin k := ⟨(w.setWidth 4).toFin, rfl⟩
  rw [hk]
  fin_cases k
  case «14» =>
    change _ = some ((add (~~~ rn) op true).2.word old)
    rw [AddWithCarry.add_comm]
    exact congrArg some (next_cpsr_sub op rn old)
  case «5» | «6» | «7» | «9» | «12» | «15» => rfl
  all_goals refine congrArg some ?_
  case «8» => exact next_cpsr_add rn op old
  case «10» => exact next_cpsr_adc rn op old _ rfl
  case «11» => exact next_cpsr_sbc rn op old _ rfl
  case «13» => exact next_cpsr_sub rn op old
  all_goals exact next_cpsr_logical old _ w

/-- The ARM helper gives the flags of the architecture and the other bits of `cpsr`, and every
    operation of a Thumb helper gives what the ARM helper gives for the same operation. -/
theorem next_flags_agree :
    (∀ w rn op old : BitVec 32, arm_hlp_compute_next_flags w rn op old =
      ((data_op.ofCode (w.setWidth 4)).flags rn op (w.getLsbD 29) (old.getLsbD 29)
        (old.getLsbD 28)).word old) ∧
    (∀ (opcode : BitVec 4) (rn op old : BitVec 32),
      thumb_hlp_compute_next_flags_data_processing (opcode.setWidth 32) rn op old =
        some ((thumb_data_processing_form opcode rn op (old.getLsbD 29)).next_flags old)) ∧
    (∀ w rn op old : BitVec 32, thumb_hlp_compute_next_flags w rn op old =
      (thumb_form (w.setWidth 5) rn op (w.getLsbD 29)).next_flags old) ∧
    (∀ w rn op old : BitVec 32, thumb_hlp_t2_modified_compute_next_flags w rn op old =
      (thumb_t2_form (w.setWidth 4) rn op (w.getLsbD 29)).map fun f => f.next_flags old) :=
  ⟨fun w rn op old => next_flags_eq rn op old w, fun opcode rn op old => thumb_data_processing rn op old opcode,
    fun w rn op old => thumb_next_flags rn op old w, fun w rn op old => thumb_t2_modified rn op old w⟩

end thumb

end Umeq.Arm
