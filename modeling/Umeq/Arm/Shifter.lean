import Umeq.Arm.Flags
import Umeq.Arm.Registers

/-! # The shifter of `arm_disassembler.c` and `thumb_disassembler.c`

    The second operand of a data-processing instruction is a shifted register. The
    disassemblers build its value, by an immediate or by a register, and the carry that
    goes out of the shifter is computed at run time by a helper from the same register and
    amount.

    The four translations that do so are modelled up to the operation on the operand.
-/

namespace Umeq.Arm

open AddWithCarry Shifts Jitter.X86_64 Jitter.X86_64.Guest

/-! ## The helpers -/

def arm_hlp_compute_sco (insn rm op oldcpsr : BitVec 32) : BitVec 32 :=
  let shift_mode := insn.extractLsb' 5 2
  let by_register := insn.getLsbD 4
  let sco := oldcpsr &&& 0x20000000#32
  let op := (op &&& 0xff#32).toNat
  match shift_mode.toNat with
  | 0 =>
    if 32 < op then 0
    else if op ≠ 0 then (host_shl rm (op - 1) >>> 2) &&& 0x20000000#32
    else sco
  | 1 =>
    let op := if by_register = false ∧ op = 0 then op + 32 else op
    if 32 < op then 0
    else if op ≠ 0 then (host_shr rm (op - 1) <<< 29) &&& 0x20000000#32
    else sco
  | 2 =>
    let op := if by_register = false ∧ op = 0 then op + 32 else op
    if 32 ≤ op then (rm &&& 0x80000000#32) >>> 2
    else if op ≠ 0 then (host_sar rm (op - 1) <<< 29) &&& 0x20000000#32
    else sco
  | _ =>
    if by_register = false ∧ op = 0 then (rm &&& 1#32) <<< 29
    else if op ≠ 0 then
      let op := op % 32
      if op ≠ 0 then (host_shr rm (op - 1) <<< 29) &&& 0x20000000#32
      else (rm >>> 2) &&& 0x20000000#32
    else sco

def thumb_t2_hlp_compute_sco (insn rm op oldcpsr : BitVec 32) : BitVec 32 :=
  let shift_mode := insn.extractLsb' 4 2
  let sco := oldcpsr &&& 0x20000000#32
  let op := (op &&& 0xff#32).toNat
  match shift_mode.toNat with
  | 0 => if op = 0 then sco else (host_shl rm (op - 1) >>> 2) &&& 0x20000000#32
  | 1 =>
    if op = 0 then (host_shr rm 31 <<< 29) &&& 0x20000000#32
    else (host_shr rm (op - 1) <<< 29) &&& 0x20000000#32
  | 2 =>
    if op = 0 then (host_shr rm 31 <<< 29) &&& 0x20000000#32
    else (host_shr rm (op - 1) <<< 29) &&& 0x20000000#32
  | _ =>
    if op = 0 then (rm <<< 29) &&& 0x20000000#32
    else (host_shr rm (op - 1) <<< 29) &&& 0x20000000#32

/-! ## The translations -/

/-- A call of one of the helpers, with the low 32 bits of its parameters. -/
def mk_sco_call (helper : BitVec 32 → BitVec 32 → BitVec 32 → BitVec 32 → BitVec 32)
    (insn rm shift_op : BitVec 64) : Run arm_registers (BitVec 64) := do
  let cpsr ← read_cpsr
  return (helper (insn.setWidth 32) (rm.setWidth 32) (shift_op.setWidth 32)
    (cpsr.setWidth 32)).setWidth 64

def mk_sco : BitVec 64 → BitVec 64 → BitVec 64 → Run arm_registers (BitVec 64) :=
  mk_sco_call arm_hlp_compute_sco

def mk_sco_t2 : BitVec 64 → BitVec 64 → BitVec 64 → Run arm_registers (BitVec 64) :=
  mk_sco_call thumb_t2_hlp_compute_sco

def mk_ror_imm_32 (op : BitVec 64) (rotation : BitVec 8) : BitVec 64 := add_ror_32 op (mk_8 rotation)

def mk_ror_reg_32 (op rs : BitVec 64) : BitVec 64 :=
  let rs_mask := add_and_32 rs (mk_32 0x1f#32)
  let rotate_r := add_32_to_8 rs_mask
  let rotate_l := add_32_to_8 (add_sub_32 (mk_32 32#32) rs_mask)
  add_or_32 (add_shr_32 op rotate_r) (add_shl_32 op rotate_l)

/-- The switch over the shifts by an immediate. -/
def shift_by_immediate (shift_mode : BitVec 2) (shift_imm : BitVec 5) (rm_reg : BitVec 64) :
    Run arm_registers (BitVec 64) :=
  match shift_mode.toNat with
  | 0 =>
    if shift_imm = 0 then pure rm_reg else pure (add_shl_32 rm_reg (mk_8 (shift_imm.setWidth 8)))
  | 1 =>
    if shift_imm = 0 then pure (mk_32 0#32) else pure (add_shr_32 rm_reg (mk_8 (shift_imm.setWidth 8)))
  | 2 => pure (add_asr_32 rm_reg (mk_8 (if shift_imm = 0 then 31 else shift_imm.setWidth 8)))
  | _ =>
    if shift_imm = 0 then do
      let c := add_and_32 (add_shl_32 (← read_cpsr) (mk_8 2)) (mk_32 0x80000000#32)
      return add_or_32 (add_shr_32 rm_reg (mk_8 1)) c
    else pure (mk_ror_imm_32 rm_reg (shift_imm.setWidth 8))

/-- The switch over the shifts by a register. -/
def shift_by_register (shift_mode : BitVec 2) (rm_reg rs_reg : BitVec 64) : BitVec 64 :=
  let pred := add_and_32 rs_reg (mk_32 0xe0#32)
  match shift_mode.toNat with
  | 0 => add_ite_32 pred (mk_32 0#32) (add_shl_32 rm_reg (add_32_to_8 rs_reg))
  | 1 => add_ite_32 pred (mk_32 0#32) (add_shr_32 rm_reg (add_32_to_8 rs_reg))
  | 2 => add_ite_32 pred (add_asr_32 rm_reg (mk_8 31)) (add_asr_32 rm_reg (add_32_to_8 rs_reg))
  | _ => mk_ror_reg_32 rm_reg rs_reg

section translations

variable (context : arm_target) (insn : BitVec 32)

/-- `dis_data_processing_register_insn`, with the operand that goes to `mk_data_processing`. -/
def dis_data_processing_register_insn : Run arm_registers (BitVec 64) := do
  let s := insn.getLsbD 20
  let shift_imm := insn.extractLsb' 7 5
  let shift_mode := insn.extractLsb' 5 2
  let rm_reg ← read_reg context (insn.extractLsb' 0 4)
  if s then
    write_sco (← mk_sco (mk_32 insn) rm_reg (mk_32 (shift_imm.setWidth 32)))
  shift_by_immediate shift_mode shift_imm rm_reg

/-- `dis_data_processing_register_shifted_insn`, with the operand that goes to
    `mk_data_processing`. -/
def dis_data_processing_register_shifted_insn : Run arm_registers (BitVec 64) := do
  let s := insn.getLsbD 20
  let rs := insn.extractLsb' 8 4
  let shift_mode := insn.extractLsb' 5 2
  let rm := insn.extractLsb' 0 4
  assert_illegal_opcode (rm ≠ 15)
  assert_illegal_opcode (rs ≠ 15)
  let rm_reg ← read_reg context rm
  let rs_reg ← read_reg context rs
  if s then
    write_sco (← mk_sco (mk_32 insn) rm_reg (add_32_to_8 rs_reg))
  return shift_by_register shift_mode rm_reg rs_reg

/-- `dis_t2_data_processing_register_shift`, with the result that goes to the flags and to
    `rd`. -/
def dis_t2_data_processing_register_shift : Run arm_registers (BitVec 64) := do
  let shift_mode := insn.extractLsb' 21 2
  let s := insn.getLsbD 20
  let rn := insn.extractLsb' 16 4
  let rd := insn.extractLsb' 8 4
  let rm := insn.extractLsb' 0 4
  assert_illegal_opcode (rn ≠ 13 ∧ rn ≠ 15)
  assert_illegal_opcode (rd ≠ 13 ∧ rd ≠ 15)
  assert_illegal_opcode (rm ≠ 13 ∧ rm ≠ 15)
  let rn_reg ← thumb_read_reg context rn
  let rm_reg ← thumb_read_reg context rm
  let result := shift_by_register shift_mode rn_reg rm_reg
  -- bit 4 is set since we want register behaviour
  if s then
    write_sco (← mk_sco (mk_32 (shift_mode.setWidth 32 <<< 5 ||| 0x10)) rn_reg (add_32_to_8 rm_reg))
  return result

/-- `dis_t2_data_processing_shifted_register`, with the operand that goes to
    `mk_data_processing_modified`. -/
def dis_t2_data_processing_shifted_register : Run arm_registers (BitVec 64) := do
  let s := insn.getLsbD 20
  let shift_imm : BitVec 5 := insn.extractLsb' 12 3 ++ insn.extractLsb' 6 2
  let shift_mode := insn.extractLsb' 4 2
  let rm_reg ← thumb_read_reg context (insn.extractLsb' 0 4)
  if s then
    write_sco (← mk_sco_t2 (mk_32 insn) rm_reg (mk_32 (shift_imm.setWidth 32)))
  shift_by_immediate shift_mode shift_imm rm_reg

end translations

/-! ## Carries -/

/-- The carry at its place in `cpsr`. -/
def carry_bit (c : Bool) : BitVec 32 := if c then 0x20000000#32 else 0#32

theorem two_bits (k : BitVec 2) : k = 0 ∨ k = 1 ∨ k = 2 ∨ k = 3 := by
  revert k
  decide

section carries

variable (insn x op cpsr : BitVec 32)

/-- The shift that the helper of the ARM instructions is asked for. -/
def arm_shift : SRType × Nat :=
  if insn.getLsbD 4 then (DecodeRegShift (insn.extractLsb' 5 2), (op &&& 0xff#32).toNat)
  else DecodeImmShift (insn.extractLsb' 5 2) (op.setWidth 5)

theorem lsl_sco (n : Nat) : (if 32 < n then 0#32
    else if n ≠ 0 then (host_shl x (n - 1) >>> 2) &&& 0x20000000#32 else cpsr &&& 0x20000000#32) =
      carry_bit (Shift_C x .LSL n (cpsr.getLsbD 29)).2 := by
  unfold Shift_C
  by_cases h0 : n = 0
  · subst h0
    exact carry_of cpsr
  rw [if_neg h0, if_pos h0]
  split_ifs with hlt
  · change _ = carry_bit (LSL_C x n).2
    rw [LSL_C_carry, decide_eq_false (by omega : ¬ n ≤ 32)]
    rfl
  · exact lsl_last x (by omega) (by omega)

theorem lsr_sco (n : Nat) : (if 32 < n then 0#32
    else if n ≠ 0 then (host_shr x (n - 1) <<< 29) &&& 0x20000000#32 else cpsr &&& 0x20000000#32) =
      carry_bit (Shift_C x .LSR n (cpsr.getLsbD 29)).2 := by
  unfold Shift_C
  by_cases h0 : n = 0
  · subst h0
    exact carry_of cpsr
  rw [if_neg h0, if_pos h0]
  split_ifs with hlt
  · change _ = carry_bit (LSR_C x n).2
    rw [LSR_C_carry x n (by omega), BitVec.getLsbD_of_ge x (n - 1) (by omega)]
    rfl
  · exact lsr_last x (by omega) (by omega)

theorem asr_sco (n : Nat) : (if 32 ≤ n then (x &&& 0x80000000#32) >>> 2
    else if n ≠ 0 then (host_sar x (n - 1) <<< 29) &&& 0x20000000#32 else cpsr &&& 0x20000000#32) =
      carry_bit (Shift_C x .ASR n (cpsr.getLsbD 29)).2 := by
  unfold Shift_C
  by_cases h0 : n = 0
  · subst h0
    exact carry_of cpsr
  rw [if_neg h0, if_pos h0]
  split_ifs with hle
  · change _ = carry_bit (ASR_C x n).2
    have htop : x &&& 0x80000000#32 = if x.getLsbD 31 then 0x80000000#32 else 0#32 :=
      BitVec.and_twoPow x 31
    rw [ASR_C_large x hle, ASR_C_carry x 32 (by decide), htop]
    cases x.getLsbD 31 <;> rfl
  · exact asr_last x (by omega) (by omega)

theorem ror_sco (n : Nat) : (if n ≠ 0 then
      if n % 32 ≠ 0 then (host_shr x (n % 32 - 1) <<< 29) &&& 0x20000000#32
      else (x >>> 2) &&& 0x20000000#32
    else cpsr &&& 0x20000000#32) = carry_bit (Shift_C x .ROR n (cpsr.getLsbD 29)).2 := by
  unfold Shift_C
  by_cases h0 : n = 0
  · subst h0
    exact carry_of cpsr
  rw [if_neg h0, if_pos h0]
  by_cases h : n % 32 = 0
  · rw [if_neg (not_not.mpr h), carry_from_top, ← (ror_zero x h).2]
    rfl
  · rw [if_pos h]
    exact (ror_last x h).2

theorem rrx_sco : (x &&& 1#32) <<< 29 = carry_bit (Shift_C x .RRX 1 (cpsr.getLsbD 29)).2 := by
  have hone : x &&& 1#32 = if x.getLsbD 0 then 1#32 else 0#32 := BitVec.and_twoPow x 0
  change _ = carry_bit (x.getLsbD 0)
  rw [hone]
  cases x.getLsbD 0 <;> rfl

/-- The amount of a shift by an immediate, as the helpers see it. -/
theorem toNat_immediate (hop : op.toNat < 32) :
    (op &&& 0xff#32).toNat = (op.setWidth 5).toNat ∧ (op.setWidth 5 = 0 ↔ (op &&& 0xff#32).toNat = 0) := by
  have hand : (op &&& 0xff#32).toNat = op.toNat := by
    rw [BitVec.toNat_and]
    change op.toNat &&& (2 ^ 8 - 1) = op.toNat
    rw [Nat.and_two_pow_sub_one_eq_mod]
    omega
  have hset : (op.setWidth 5).toNat = op.toNat := by
    rw [BitVec.toNat_setWidth]
    omega
  rw [hand, hset, ← BitVec.toNat_inj, hset]
  exact ⟨rfl, Iff.rfl⟩

/-- Up to 32 the two shifts to the right move the same bit out. -/
theorem lsr_carry_asr {n : Nat} (hn : 0 < n) (hle : n ≤ 32) :
    (if (LSR_C x n).2 then 0x20000000#32 else 0#32) = carry_bit (ASR_C x n).2 := by
  have hlt : n - 1 < 32 := by omega
  rw [LSR_C_carry x n hn, ASR_C_carry x n hn]
  simp only [hlt, if_true, carry_bit]

/-- The helper of the ARM instructions gives the carry of the shift that it is asked for. -/
theorem arm_sco (hop : insn.getLsbD 4 = false → op.toNat < 32) :
    arm_hlp_compute_sco insn x op cpsr =
      carry_bit (Shift_C x (arm_shift insn op).1 (arm_shift insn op).2 (cpsr.getLsbD 29)).2 := by
  unfold arm_hlp_compute_sco arm_shift
  obtain ⟨k, hk⟩ : ∃ k : Fin 4, insn.extractLsb' 5 2 = BitVec.ofFin k := ⟨(insn.extractLsb' 5 2).toFin, rfl⟩
  cases hreg : insn.getLsbD 4 with
  | true =>
    simp only [hk, if_true, Bool.true_eq_false, false_and, if_false]
    fin_cases k
    · exact lsl_sco x cpsr _
    · exact lsr_sco x cpsr _
    · exact asr_sco x cpsr _
    · exact ror_sco x cpsr _
  | false =>
    obtain ⟨hamount, hzero⟩ := toNat_immediate op (hop hreg)
    simp only [hk, Bool.false_eq_true, if_false, true_and]
    rw [hamount] at *
    generalize op.setWidth 5 = imm at *
    -- for the shifts to the right, 0 stands for 32 or for a rotation through the carry
    by_cases h0 : imm = 0
    · subst h0
      fin_cases k
      · exact lsl_sco x cpsr 0
      · exact lsr_sco x cpsr 32
      · exact asr_sco x cpsr 32
      · exact rrx_sco x cpsr
    · have hne : imm.toNat ≠ 0 := fun h => h0 (hzero.mpr h)
      simp only [hne, if_false, DecodeImmShift, h0]
      fin_cases k
      · exact lsl_sco x cpsr _
      · exact lsr_sco x cpsr _
      · exact asr_sco x cpsr _
      · exact ror_sco x cpsr _

theorem arm_immediate_sco (imm : BitVec 5) (hform : insn.getLsbD 4 = false) :
    arm_hlp_compute_sco insn x (imm.setWidth 32) cpsr =
      let shift := DecodeImmShift (insn.extractLsb' 5 2) imm
      carry_bit (Shift_C x shift.1 shift.2 (cpsr.getLsbD 29)).2 := by
  have hlt : (imm.setWidth 32).toNat < 32 := by
    rw [BitVec.toNat_setWidth]
    omega
  rw [arm_sco insn x _ cpsr fun _ => hlt, arm_shift, hform]
  simp

theorem arm_register_sco (hform : insn.getLsbD 4 = true) :
    arm_hlp_compute_sco insn x op cpsr = carry_bit (Shift_C x (DecodeRegShift (insn.extractLsb' 5 2))
      (op &&& 0xff#32).toNat (cpsr.getLsbD 29)).2 := by
  rw [arm_sco insn x op cpsr (by simp [hform]), arm_shift, hform]
  rfl

/-- The helper of the 32-bit Thumb instructions, for the amounts of an immediate. -/
theorem thumb_t2_sco (imm : BitVec 5) : thumb_t2_hlp_compute_sco insn x (imm.setWidth 32) cpsr =
    let shift := DecodeImmShift (insn.extractLsb' 4 2) imm
    carry_bit (Shift_C x shift.1 shift.2 (cpsr.getLsbD 29)).2 := by
  have hlt : (imm.setWidth 32).toNat < 32 := by
    rw [BitVec.toNat_setWidth]
    omega
  obtain ⟨hamount, hzero⟩ := toNat_immediate (imm.setWidth 32) hlt
  have hself : (imm.setWidth 32).setWidth 5 = imm := by simp
  rw [hself] at hamount hzero
  rw [hamount] at hzero
  unfold thumb_t2_hlp_compute_sco
  simp only [hamount]
  by_cases h0 : imm = 0
  · subst h0
    have hlast := lsr_last x (show 0 < 32 by decide) (by decide)
    rcases two_bits (insn.extractLsb' 4 2) with hk | hk | hk | hk <;>
      simp only [hk, if_true, DecodeImmShift]
    · exact carry_of cpsr
    · exact hlast
    · exact hlast.trans (lsr_carry_asr x (by decide) (by decide))
    · exact carry_from_bottom x
  · have hne : imm.toNat ≠ 0 := fun h => h0 (hzero.mpr h)
    have hpos : 0 < imm.toNat := Nat.pos_of_ne_zero hne
    have hle : imm.toNat ≤ 32 := Nat.le_of_lt imm.isLt
    simp only [hne, if_false, DecodeImmShift, h0]
    rcases two_bits (insn.extractLsb' 4 2) with hk | hk | hk | hk <;> rw [hk]
    · change _ = carry_bit (Shift_C x .LSL imm.toNat _).2
      rw [Shift_C_LSL x hne]
      exact lsl_last x hpos hle
    · change _ = carry_bit (Shift_C x .LSR imm.toNat _).2
      rw [Shift_C_LSR x hne]
      exact lsr_last x hpos hle
    · change _ = carry_bit (Shift_C x .ASR imm.toNat _).2
      rw [Shift_C_ASR x hne, ← lsr_carry_asr x hpos hle]
      exact lsr_last x hpos hle
    · change _ = carry_bit (Shift_C x .ROR imm.toNat _).2
      have hmod : imm.toNat % 32 = imm.toNat := Nat.mod_eq_of_lt imm.isLt
      have hlast := (ror_last x (show imm.toNat % 32 ≠ 0 by rwa [hmod])).2
      rw [hmod] at hlast
      rw [Shift_C_ROR x hne]
      exact hlast

end carries

/-! ## Values -/

section values

variable (x amount : BitVec 32) (e : host_env) (s : machine arm_registers)

/-- An amount below 64 is seen as it is. -/
theorem count_immediate (imm : BitVec 5) : (mk_8 (imm.setWidth 8)).toNat = imm.toNat := by
  rw [toNat_mk_8, BitVec.toNat_setWidth]
  omega

/-- A rotation to the right through the carry. -/
theorem rrx_value (c : BitVec 32) : (x >>> 1) ||| ((c <<< 2) &&& 0x80000000#32) =
    (RRX_C x (c.getLsbD 29)).1 := by
  have htop : (c <<< 2) &&& 0x80000000#32 =
      if (c <<< 2).getLsbD 31 then 0x80000000#32 else 0#32 := BitVec.and_twoPow (c <<< 2) 31
  have hbit : (c <<< 2).getLsbD 31 = c.getLsbD 29 := by simp
  rw [htop, hbit, RRX_C]
  cases c.getLsbD 29 <;> rfl

theorem immediate_value (shift_mode : BitVec 2) (imm : BitVec 5) :
    shift_by_immediate shift_mode imm (x.setWidth 64) e s =
      let shift := DecodeImmShift shift_mode imm
      .done ((Shift_C x shift.1 shift.2 (s.context.cpsr.getLsbD 29)).1.setWidth 64) s := by
  have hlt := imm.isLt
  have hcount : imm.toNat % 64 = imm.toNat := by omega
  by_cases h0 : imm = 0
  · subst h0
    rcases two_bits shift_mode with rfl | rfl | rfl | rfl
    · rfl
    · change outcome.done (mk_32 0#32) s = .done ((LSR_C x 32).1.setWidth 64) s
      rw [LSR_C_result, BitVec.ushiftRight_eq_zero (by decide)]
      rfl
    · change outcome.done (add_asr_32 (x.setWidth 64) (mk_8 31)) s = .done ((ASR_C x 32).1.setWidth 64) s
      rw [asr_32, toNat_mk_8, ASR_C_result, ← host_sar_31, host_sar_of_lt x (by decide)]
      rfl
    · change outcome.done (add_or_32 (add_shr_32 (x.setWidth 64) (mk_8 1))
        (add_and_32 (add_shl_32 (s.context.cpsr.setWidth 64) (mk_8 2)) (mk_32 0x80000000#32))) s =
          .done ((RRX_C x (s.context.cpsr.getLsbD 29)).1.setWidth 64) s
      rw [← rrx_value, shr_32, shl_32, mk_32, and_32, or_32, toNat_mk_8, toNat_mk_8]
      rfl
  · have hne : imm.toNat ≠ 0 := fun h => h0 (BitVec.eq_of_toNat_eq h)
    unfold shift_by_immediate
    rcases two_bits shift_mode with rfl | rfl | rfl | rfl <;> simp only [DecodeImmShift, h0, if_false]
    · change outcome.done (add_shl_32 (x.setWidth 64) (mk_8 (imm.setWidth 8))) s =
        .done ((Shift_C x .LSL imm.toNat _).1.setWidth 64) s
      rw [Shift_C_LSL x hne, LSL_C_result, shl_32, count_immediate, hcount]
    · change outcome.done (add_shr_32 (x.setWidth 64) (mk_8 (imm.setWidth 8))) s =
        .done ((Shift_C x .LSR imm.toNat _).1.setWidth 64) s
      rw [Shift_C_LSR x hne, LSR_C_result, shr_32, count_immediate, hcount]
    · change outcome.done (add_asr_32 (x.setWidth 64) (mk_8 (imm.setWidth 8))) s =
        .done ((Shift_C x .ASR imm.toNat _).1.setWidth 64) s
      rw [Shift_C_ASR x hne, ASR_C_result, asr_32, count_immediate, hcount]
    · change outcome.done (mk_ror_imm_32 (x.setWidth 64) (imm.setWidth 8)) s =
        .done ((Shift_C x .ROR imm.toNat _).1.setWidth 64) s
      rw [Shift_C_ROR x hne, ROR_C_result, mk_ror_imm_32, ror_32, count_immediate, Nat.mod_eq_of_lt hlt]

theorem toNat_low_byte : (amount &&& 0xff#32).toNat = (amount.setWidth 8).toNat := by
  rw [BitVec.toNat_and, BitVec.toNat_setWidth]
  exact Nat.and_two_pow_sub_one_eq_mod amount.toNat 8

/-- The test for an amount of 32 or more. -/
theorem large_amount :
    add_and_32 (amount.setWidth 64) (mk_32 0xe0#32) ≠ 0 ↔ 32 ≤ (amount &&& 0xff#32).toNat := by
  have hbytes : ∀ b : BitVec 8, ((b &&& 0xe0#8).setWidth 32).setWidth 64 ≠ 0 ↔
      32 ≤ b.toNat := by
    decide +kernel
  have hmask : amount &&& 0xe0#32 = (amount.setWidth 8 &&& 0xe0#8).setWidth 32 := by
    apply BitVec.eq_of_getLsbD_eq
    intro i hi
    have hconst : (0xe0#32).getLsbD i = (decide (i < 32) && (0xe0#8).getLsbD i) := by
      rw [← BitVec.getLsbD_setWidth]
      rfl
    simp only [BitVec.getLsbD_and, BitVec.getLsbD_setWidth, hconst, hi, decide_true, Bool.true_and]
    by_cases h : i < 8
    · simp [h]
    · rw [BitVec.getLsbD_of_ge (0xe0#8) i (by omega)]
      simp
  rw [mk_32, and_32, toNat_low_byte, hmask]
  exact hbytes _

/-- The amount that is shifted by. -/
theorem low_amount : (add_32_to_8 (amount.setWidth 64)).toNat = (amount &&& 0xff#32).toNat := by
  have hlt := (amount.setWidth 8).isLt
  rw [to_8, toNat_low_byte, BitVec.toNat_setWidth, Nat.mod_eq_of_lt (by omega)]

/-- A rotation by a register: the two parts are shifted apart, the one to the left by up to 32. -/
theorem ror_reg_value : mk_ror_reg_32 (x.setWidth 64) (amount.setWidth 64) =
    (ROR_C x (amount &&& 0xff#32).toNat).1.setWidth 64 := by
  have hmask : (amount &&& 0x1f#32).toNat = (amount &&& 0xff#32).toNat % 32 := by
    rw [toNat_amount, toNat_low_byte, BitVec.toNat_setWidth, Nat.mod_mod_of_dvd _ (by decide)]
  have hm := Nat.mod_lt (amount &&& 0xff#32).toNat (show 0 < 32 by decide)
  have hr : (add_32_to_8 ((amount &&& 0x1f#32).setWidth 64)).toNat % 64 =
      (amount &&& 0xff#32).toNat % 32 := by
    rw [low_amount, toNat_low_byte, BitVec.toNat_setWidth, hmask]
    omega
  have hl : (add_32_to_8 ((32#32 - (amount &&& 0x1f#32)).setWidth 64)).toNat % 64 =
      32 - (amount &&& 0xff#32).toNat % 32 := by
    rw [low_amount, toNat_low_byte, BitVec.toNat_setWidth, BitVec.toNat_sub, hmask]
    simp only [BitVec.toNat_ofNat]
    omega
  unfold mk_ror_reg_32
  simp only [mk_32, and_32, sub_32]
  rw [shr_32, shl_32, or_32, hr, hl]
  rfl

theorem register_value (shift_mode : BitVec 2) (c : Bool) :
    shift_by_register shift_mode (x.setWidth 64) (amount.setWidth 64) =
      (Shift_C x (DecodeRegShift shift_mode) (amount &&& 0xff#32).toNat c).1.setWidth 64 := by
  have hpred := large_amount amount
  have hcount := low_amount amount
  have hror := ror_reg_value x amount
  unfold shift_by_register add_ite_32
  simp only [hpred]
  generalize (amount &&& 0xff#32).toNat = n at *
  by_cases h0 : n = 0
  · subst h0
    simp only [Nat.le_zero_eq, show ¬ 32 = 0 by decide, if_false]
    rcases two_bits shift_mode with rfl | rfl | rfl | rfl
    · change add_shl_32 _ _ = x.setWidth 64
      rw [shl_32, hcount]
      simp
    · change add_shr_32 _ _ = x.setWidth 64
      rw [shr_32, hcount]
      simp
    · change add_asr_32 _ _ = x.setWidth 64
      rw [asr_32, hcount]
      simp
    · change mk_ror_reg_32 _ _ = x.setWidth 64
      rw [hror, (ror_zero x (by decide)).1]
  rcases two_bits shift_mode with rfl | rfl | rfl | rfl
  · change (if _ then _ else _) = (Shift_C x .LSL n c).1.setWidth 64
    rw [Shift_C_LSL x h0, LSL_C_result]
    split_ifs with hle
    · rw [BitVec.shiftLeft_eq_zero hle]
      rfl
    · rw [shl_32, hcount, Nat.mod_eq_of_lt (by omega)]
  · change (if _ then _ else _) = (Shift_C x .LSR n c).1.setWidth 64
    rw [Shift_C_LSR x h0, LSR_C_result]
    split_ifs with hle
    · rw [BitVec.ushiftRight_eq_zero hle]
      rfl
    · rw [shr_32, hcount, Nat.mod_eq_of_lt (by omega)]
  · change (if _ then _ else _) = (Shift_C x .ASR n c).1.setWidth 64
    rw [Shift_C_ASR x h0]
    split_ifs with hle
    · rw [ASR_C_large x hle, ASR_C_result, asr_32, toNat_mk_8, ← host_sar_31,
        host_sar_of_lt x (by decide)]
      rfl
    · rw [ASR_C_result, asr_32, hcount, Nat.mod_eq_of_lt (by omega)]
  · change mk_ror_reg_32 _ _ = (Shift_C x .ROR n c).1.setWidth 64
    rw [Shift_C_ROR x h0, hror]

end values

/-! ## The translations -/

/-- A translation gives the shifted value and, when it sets the flags, the carry. -/
def Shifted (p : Run arm_registers (BitVec 64)) (sets : Bool) (shifted : arm_registers → BitVec 32 × Bool) :
    Prop :=
  ∀ (e : host_env) (s : machine arm_registers), p e s =
    .done ((shifted s.context).1.setWidth 64) { s with
      context := if sets then
        { s.context with shifter_carry_out := carry_bit (shifted s.context).2 } else s.context }

/-- A register as an ARM instruction reads it, and as a Thumb instruction does. -/
def arm_operand (context : arm_target) (c : arm_registers) (index : BitVec 4) : BitVec 32 :=
  if index = 15 then context.pc + 8 else c.r index

def thumb_operand (context : arm_target) (c : arm_registers) (index : BitVec 4) : BitVec 32 :=
  if index = 15 then (context.pc + 4) &&& ~~~ 1#32 else c.r index

section translated

variable (context : arm_target) (insn : BitVec 32) (e : host_env) (s : machine arm_registers)

theorem run_read_reg (index : BitVec 4) : read_reg context index e s =
    .done ((arm_operand context s.context index).setWidth 64) s := by
  unfold read_reg arm_operand
  split_ifs <;> rfl

theorem run_thumb_read_reg (index : BitVec 4) : thumb_read_reg context index e s =
    .done ((thumb_operand context s.context index).setWidth 64) s := by
  unfold thumb_read_reg thumb_operand
  split_ifs <;> rfl

theorem setWidth_word (x : BitVec 32) : (x.setWidth 64).setWidth 32 = x := by simp

/-- The carry is written when the instruction sets the flags. -/
theorem run_write_sco (helper : BitVec 32 → BitVec 32 → BitVec 32 → BitVec 32 → BitVec 32) (sets : Bool)
    (i x op : BitVec 32) {α : Type} (f : Run arm_registers α) {c : Bool}
    (hc : helper i x op s.context.cpsr = carry_bit c) :
    (do
      if sets then write_sco (← mk_sco_call helper (i.setWidth 64) (x.setWidth 64) (op.setWidth 64))
      f) e s = f e { s with context :=
        if sets then { s.context with shifter_carry_out := carry_bit c } else s.context } := by
  cases sets with
  | false => rfl
  | true =>
    change f e { s with context := { s.context with
      shifter_carry_out := ((helper ((i.setWidth 64).setWidth 32) ((x.setWidth 64).setWidth 32)
        ((op.setWidth 64).setWidth 32) ((s.context.cpsr.setWidth 64).setWidth 32)).setWidth
          64).setWidth 32 } } = _
    rw [setWidth_word, setWidth_word, setWidth_word, setWidth_word, setWidth_word, hc]
    rfl

/-- A write of the carry leaves `cpsr`. -/
theorem cpsr_after (sets : Bool) (v : BitVec 32) (c : arm_registers) :
    (if sets then { c with shifter_carry_out := v } else c).cpsr = c.cpsr := by
  cases sets <;> rfl

theorem register_insn_shifted (hform : insn.getLsbD 4 = false) :
    Shifted (dis_data_processing_register_insn context insn) (insn.getLsbD 20) fun c =>
      let shift := DecodeImmShift (insn.extractLsb' 5 2) (insn.extractLsb' 7 5)
      Shift_C (arm_operand context c (insn.extractLsb' 0 4)) shift.1 shift.2 (c.cpsr.getLsbD 29) := by
  intro e s
  have hcarry := arm_immediate_sco insn (arm_operand context s.context (insn.extractLsb' 0 4))
    s.context.cpsr (insn.extractLsb' 7 5) hform
  unfold dis_data_processing_register_insn
  simp only [run_bind, run_read_reg]
  refine (run_write_sco e s arm_hlp_compute_sco (insn.getLsbD 20) _ _ _ _ hcarry).trans ?_
  rw [immediate_value, cpsr_after]

theorem shifted_register_shifted :
    Shifted (dis_t2_data_processing_shifted_register context insn) (insn.getLsbD 20) fun c =>
      let shift := DecodeImmShift (insn.extractLsb' 4 2) (insn.extractLsb' 12 3 ++ insn.extractLsb' 6 2)
      Shift_C (thumb_operand context c (insn.extractLsb' 0 4)) shift.1 shift.2 (c.cpsr.getLsbD 29) := by
  intro e s
  have hcarry := thumb_t2_sco insn (thumb_operand context s.context (insn.extractLsb' 0 4))
    s.context.cpsr (insn.extractLsb' 12 3 ++ insn.extractLsb' 6 2)
  unfold dis_t2_data_processing_shifted_register
  simp only [run_bind, run_thumb_read_reg]
  refine (run_write_sco e s thumb_t2_hlp_compute_sco (insn.getLsbD 20) _ _ _ _ hcarry).trans ?_
  rw [immediate_value, cpsr_after]

/-- An amount in a register, of which the low byte is passed. -/
theorem low_byte_amount (amount : BitVec 32) :
    ((amount.setWidth 8).setWidth 32 &&& 0xff#32).toNat = (amount &&& 0xff#32).toNat := by
  rw [toNat_low_byte, toNat_low_byte]
  simp

theorem to_8_word (amount : BitVec 32) : add_32_to_8 (amount.setWidth 64) =
    ((amount.setWidth 8).setWidth 32).setWidth 64 := by
  rw [to_8]
  apply BitVec.eq_of_toNat_eq
  simp only [BitVec.toNat_setWidth]
  omega

theorem run_assert {p : Prop} [Decidable p] (hp : p) :
    (assert_illegal_opcode p : Run arm_registers Unit) e s = .done () s := if_pos hp

theorem register_shifted_insn_shifted (hform : insn.getLsbD 4 = true) (hrm : insn.extractLsb' 0 4 ≠ 15)
    (hrs : insn.extractLsb' 8 4 ≠ 15) :
    Shifted (dis_data_processing_register_shifted_insn context insn) (insn.getLsbD 20) fun c =>
      Shift_C (c.r (insn.extractLsb' 0 4)) (DecodeRegShift (insn.extractLsb' 5 2))
        (c.r (insn.extractLsb' 8 4) &&& 0xff#32).toNat (c.cpsr.getLsbD 29) := by
  intro e s
  have hx : arm_operand context s.context (insn.extractLsb' 0 4) = s.context.r (insn.extractLsb' 0 4) :=
    if_neg hrm
  have ha : arm_operand context s.context (insn.extractLsb' 8 4) = s.context.r (insn.extractLsb' 8 4) :=
    if_neg hrs
  have hcarry := arm_register_sco insn (s.context.r (insn.extractLsb' 0 4))
    (((s.context.r (insn.extractLsb' 8 4)).setWidth 8).setWidth 32) s.context.cpsr hform
  rw [low_byte_amount] at hcarry
  unfold dis_data_processing_register_shifted_insn
  simp only [run_bind, run_assert _ _ hrm, run_assert _ _ hrs, run_read_reg, hx, ha, to_8_word]
  refine (run_write_sco e s arm_hlp_compute_sco (insn.getLsbD 20) _ _ _ _ hcarry).trans ?_
  rw [register_value]
  rfl

theorem register_shift_shifted (hrn : insn.extractLsb' 16 4 ≠ 13 ∧ insn.extractLsb' 16 4 ≠ 15)
    (hrd : insn.extractLsb' 8 4 ≠ 13 ∧ insn.extractLsb' 8 4 ≠ 15)
    (hrm : insn.extractLsb' 0 4 ≠ 13 ∧ insn.extractLsb' 0 4 ≠ 15) :
    Shifted (dis_t2_data_processing_register_shift context insn) (insn.getLsbD 20) fun c =>
      Shift_C (c.r (insn.extractLsb' 16 4)) (DecodeRegShift (insn.extractLsb' 21 2))
        (c.r (insn.extractLsb' 0 4) &&& 0xff#32).toNat (c.cpsr.getLsbD 29) := by
  intro e s
  have hx : thumb_operand context s.context (insn.extractLsb' 16 4) =
      s.context.r (insn.extractLsb' 16 4) := if_neg hrn.2
  have ha : thumb_operand context s.context (insn.extractLsb' 0 4) =
      s.context.r (insn.extractLsb' 0 4) := if_neg hrm.2
  -- the instruction that the helper is given has the kind of the shift and bit 4 only
  have hword : ((insn.extractLsb' 21 2).setWidth 32 <<< 5 ||| 0x10#32).getLsbD 4 = true ∧
      ((insn.extractLsb' 21 2).setWidth 32 <<< 5 ||| 0x10#32).extractLsb' 5 2 = insn.extractLsb' 21 2 := by
    generalize insn.extractLsb' 21 2 = k
    revert k
    decide
  have hcarry := arm_register_sco _ (s.context.r (insn.extractLsb' 16 4))
    (((s.context.r (insn.extractLsb' 0 4)).setWidth 8).setWidth 32) s.context.cpsr hword.1
  rw [low_byte_amount, hword.2] at hcarry
  unfold dis_t2_data_processing_register_shift
  simp only [run_bind, run_assert _ _ hrn, run_assert _ _ hrd, run_assert _ _ hrm, run_thumb_read_reg, hx,
    ha, to_8_word]
  refine (run_write_sco e s arm_hlp_compute_sco (insn.getLsbD 20) _ _ _ _ hcarry).trans ?_
  rw [register_value]
  rfl

/-- The value that a translation builds and the carry that the helper returns are those of the
    architecture, for the shifts by an immediate and for those by a register, of ARM and of
    Thumb-2. -/
theorem shifter_is_shift_c :
    (∀ (context : arm_target) (insn : BitVec 32), insn.getLsbD 4 = false →
      Shifted (dis_data_processing_register_insn context insn) (insn.getLsbD 20) fun c =>
        let shift := DecodeImmShift (insn.extractLsb' 5 2) (insn.extractLsb' 7 5)
        Shift_C (arm_operand context c (insn.extractLsb' 0 4)) shift.1 shift.2 (c.cpsr.getLsbD 29)) ∧
    (∀ (context : arm_target) (insn : BitVec 32), insn.getLsbD 4 = true →
      insn.extractLsb' 0 4 ≠ 15 → insn.extractLsb' 8 4 ≠ 15 →
      Shifted (dis_data_processing_register_shifted_insn context insn) (insn.getLsbD 20) fun c =>
        Shift_C (c.r (insn.extractLsb' 0 4)) (DecodeRegShift (insn.extractLsb' 5 2))
          (c.r (insn.extractLsb' 8 4) &&& 0xff#32).toNat (c.cpsr.getLsbD 29)) ∧
    (∀ (context : arm_target) (insn : BitVec 32),
      insn.extractLsb' 16 4 ≠ 13 ∧ insn.extractLsb' 16 4 ≠ 15 →
      insn.extractLsb' 8 4 ≠ 13 ∧ insn.extractLsb' 8 4 ≠ 15 →
      insn.extractLsb' 0 4 ≠ 13 ∧ insn.extractLsb' 0 4 ≠ 15 →
      Shifted (dis_t2_data_processing_register_shift context insn) (insn.getLsbD 20) fun c =>
        Shift_C (c.r (insn.extractLsb' 16 4)) (DecodeRegShift (insn.extractLsb' 21 2))
          (c.r (insn.extractLsb' 0 4) &&& 0xff#32).toNat (c.cpsr.getLsbD 29)) ∧
    (∀ (context : arm_target) (insn : BitVec 32),
      Shifted (dis_t2_data_processing_shifted_register context insn) (insn.getLsbD 20) fun c =>
        let shift := DecodeImmShift (insn.extractLsb' 4 2) (insn.extractLsb' 12 3 ++ insn.extractLsb' 6 2)
        Shift_C (thumb_operand context c (insn.extractLsb' 0 4)) shift.1 shift.2 (c.cpsr.getLsbD 29)) ∧
    (∀ (insn x cpsr : BitVec 32) (imm : BitVec 5), insn.getLsbD 4 = false →
      arm_hlp_compute_sco insn x (imm.setWidth 32) cpsr =
        let shift := DecodeImmShift (insn.extractLsb' 5 2) imm
        carry_bit (Shift_C x shift.1 shift.2 (cpsr.getLsbD 29)).2) ∧
    (∀ insn x amount cpsr : BitVec 32, insn.getLsbD 4 = true →
      arm_hlp_compute_sco insn x amount cpsr = carry_bit (Shift_C x
        (DecodeRegShift (insn.extractLsb' 5 2)) (amount &&& 0xff#32).toNat (cpsr.getLsbD 29)).2) ∧
    (∀ (insn x cpsr : BitVec 32) (imm : BitVec 5),
      thumb_t2_hlp_compute_sco insn x (imm.setWidth 32) cpsr =
        let shift := DecodeImmShift (insn.extractLsb' 4 2) imm
        carry_bit (Shift_C x shift.1 shift.2 (cpsr.getLsbD 29)).2) :=
  ⟨register_insn_shifted, register_shifted_insn_shifted, register_shift_shifted,
    shifted_register_shifted, fun insn x cpsr imm => arm_immediate_sco insn x cpsr imm,
    fun insn x amount cpsr => arm_register_sco insn x amount cpsr,
    fun insn x cpsr imm => thumb_t2_sco insn x cpsr imm⟩

/-- MOVS r0, r1, LSL #1. -/
theorem shifter_is_shift_c_movs : (0xe1b00081#32).getLsbD 4 = false ∧
    Shifted (dis_data_processing_register_insn ⟨0, 0⟩ 0xe1b00081#32) true fun c =>
      Shift_C (arm_operand ⟨0, 0⟩ c 1) .LSL 1 (c.cpsr.getLsbD 29) :=
  ⟨by decide, shifter_is_shift_c.1 ⟨0, 0⟩ 0xe1b00081#32 (by decide)⟩

end translated

end Umeq.Arm
