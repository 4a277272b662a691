import Mathlib.Tactic.IntervalCases
import Umeq.Arm.ItBlocks
import Umeq.Arm.Shifter
import Umeq.Jitter.I386.Words

/-! # The shifts by an immediate and the moves of `thumb_disassembler.c`

    A 16-bit shift writes its carry to `shifter_carry_out`, and the helper that computes the flags
    reads it from there, together with the opcode. The move of an immediate reads it too, although
    it has not written it.

    * The x86_64 back end shifts the whole host register, the i386 back end a word, where an amount
      of 32 is one of 0.
    * For ASR an amount of 0 is replaced by 31, which gives the value of a shift by 32, but not its
      carry.
-/

namespace Umeq.Arm

open AddWithCarry Shifts Jitter Jitter.X86_64.Guest

/-! ## Both back ends -/

inductive backend where
  | x86_64
  | i386
  deriving DecidableEq, Repr

/-- What a binary operation on 32 bits leaves in the register of its result. -/
def backend.binop (b : backend) (o : I386.word_op) (op1 op2 : BitVec 64) : BitVec 64 :=
  match b with
  | .x86_64 => host_result o.type .w32 op1 op2
  | .i386 => (o.result (op1.setWidth 32) (op2.setWidth 32)).setWidth 64

def backend.add_or_32 (b : backend) : BitVec 64 → BitVec 64 → BitVec 64 := b.binop .OR
def backend.add_shl_32 (b : backend) : BitVec 64 → BitVec 64 → BitVec 64 := b.binop .SHL
def backend.add_shr_32 (b : backend) : BitVec 64 → BitVec 64 → BitVec 64 := b.binop .SHR
def backend.add_asr_32 (b : backend) : BitVec 64 → BitVec 64 → BitVec 64 := b.binop .ASR

/-- It is what the code of the i386 back end leaves in the word of its result. -/
theorem i386_binop (o : I386.word_op) (dst op1 op2 : I386.x86Register) (f : I386.frame) :
    (I386.frame.run (I386.gen_binop .w32 o.type dst op1 op2) f).map (fun f' => f'.get dst) =
      some ((backend.i386.binop o ((f.get op1).setWidth 64) ((f.get op2).setWidth 64)).setWidth 32) := by
  rw [I386.run_gen_binop]
  simp only [Option.map_some, I386.frame.get, Function.update_self, backend.binop, setWidth_word]

/-! ## The translations -/

def read_sco : Run arm_registers (BitVec 64) :=
  add_read_context fun c => c.shifter_carry_out.setWidth 64

def write_cpsr (value : BitVec 64) : Run arm_registers Unit :=
  add_write_context fun c => { c with cpsr := value.setWidth 32 }

/-- The call of `thumb_hlp_compute_next_flags`. -/
def mk_next_flags (b : backend) (opcode : BitVec 5) (rn op : BitVec 64) :
    Run arm_registers (BitVec 64) := do
  let param0 := b.add_or_32 (mk_32 (opcode.setWidth 32)) (← read_sco)
  let cpsr ← read_cpsr
  return (thumb_hlp_compute_next_flags (param0.setWidth 32) (rn.setWidth 32) (op.setWidth 32)
    (cpsr.setWidth 32)).setWidth 64

section translations

variable (b : backend) (context : arm_target) (disa_itstate insn : BitVec 32)

def dis_t1_mov_immediate : Run arm_registers Unit := do
  let rd : BitVec 3 := insn.extractLsb' 8 3
  let imm32 : BitVec 32 := (insn.extractLsb' 0 8).setWidth 32
  let s := !inItBlock disa_itstate
  let opcode := insn.extractLsb' 9 5
  if s then
    let nextCpsr ← mk_next_flags b opcode (mk_32 0) (mk_32 imm32)
    write_reg (rd.setWidth 4) (mk_32 imm32)
    write_cpsr nextCpsr
  else write_reg (rd.setWidth 4) (mk_32 imm32)

/-- The three shifts, with the operation, the mode for the helper and the amount. -/
def mk_t1_shift_immediate (add_shift : BitVec 64 → BitVec 64 → BitVec 64) (shift_mode : BitVec 32)
    (imm5 : BitVec 8) : Run arm_registers Unit := do
  let rm : BitVec 3 := insn.extractLsb' 3 3
  let rd : BitVec 3 := insn.extractLsb' 0 3
  let s := !inItBlock disa_itstate
  let rm_reg ← thumb_read_reg context (rm.setWidth 4)
  let opcode := insn.extractLsb' 9 5
  let result := add_shift rm_reg (mk_8 imm5)
  if s then
    write_sco (← mk_sco (mk_32 shift_mode) rm_reg (mk_32 (imm5.setWidth 32)))
    let nextCpsr ← mk_next_flags b opcode result result
    write_reg (rd.setWidth 4) result
    write_cpsr nextCpsr
  else write_reg (rd.setWidth 4) result

/-- The field of the amount. -/
def imm5_of (insn : BitVec 32) : BitVec 5 := insn.extractLsb' 6 5

def dis_t1_lsl_immediate : Run arm_registers Unit :=
  mk_t1_shift_immediate b context disa_itstate insn b.add_shl_32 0#32 ((imm5_of insn).setWidth 8)

def dis_t1_lsr_immediate : Run arm_registers Unit :=
  mk_t1_shift_immediate b context disa_itstate insn b.add_shr_32 (1#32 <<< 5)
    (if imm5_of insn = 0 then 32 else (imm5_of insn).setWidth 8)

def dis_t1_asr_immediate : Run arm_registers Unit :=
  mk_t1_shift_immediate b context disa_itstate insn b.add_asr_32 (2#32 <<< 5)
    (if imm5_of insn = 0 then 31 else (imm5_of insn).setWidth 8)

/-- The instructions that are translated by them. -/
inductive t1_move where
  | LSL | LSR | ASR | MOV
  deriving DecidableEq, Repr

/-- The cases of `dis_t1_shift_A_add_A_substract_A_move_A_compare` for them. -/
def t1_move.of (insn : BitVec 32) : Option t1_move :=
  let opcode := (insn.extractLsb' 9 5).toNat
  if opcode ≤ 3 then some .LSL
  else if opcode ≤ 7 then some .LSR
  else if opcode ≤ 11 then some .ASR
  else if 16 ≤ opcode ∧ opcode ≤ 19 then some .MOV
  else none

def t1_move.translation (o : t1_move) : Run arm_registers Unit :=
  match o with
  | .LSL => dis_t1_lsl_immediate b context disa_itstate insn
  | .LSR => dis_t1_lsr_immediate b context disa_itstate insn
  | .ASR => dis_t1_asr_immediate b context disa_itstate insn
  | .MOV => dis_t1_mov_immediate b disa_itstate insn

end translations

/-! ## The architecture -/

/-- The register that is written, its value and the carry. -/
structure moved where
  rd : BitVec 3
  result : BitVec 32
  carry : Bool

/-- The operation of a shift. -/
def t1_shift (insn : BitVec 32) (c : arm_registers) (type : BitVec 2) : moved :=
  let shift := DecodeImmShift type (imm5_of insn)
  let rm : BitVec 3 := insn.extractLsb' 3 3
  let r := Shift_C (c.r (rm.setWidth 4)) shift.1 shift.2 (c.cpsr.getLsbD 29)
  ⟨insn.extractLsb' 0 3, r.1, r.2⟩

def t1_move.execute (o : t1_move) (insn : BitVec 32) (c : arm_registers) : moved :=
  match o with
  | .LSL => t1_shift insn c 0
  | .LSR => t1_shift insn c 1
  | .ASR => t1_shift insn c 2
  | .MOV => ⟨insn.extractLsb' 8 3, (insn.extractLsb' 0 8).setWidth 32, c.cpsr.getLsbD 29⟩

/-- The register and the flags are written, and no other register. -/
structure Moved (m : moved) (c c' : arm_registers) : Prop where
  registers : c'.r = Function.update c.r (m.rd.setWidth 4) m.result
  flags : c'.cpsr = (logical m.result m.carry (c.cpsr.getLsbD 28)).word c.cpsr

/-- The translation ends in a state that the instruction may leave. -/
def Executes (p : Run arm_registers Unit) (e : host_env) (s : machine arm_registers) (m : moved) :
    Prop :=
  ∃ c', p e s = .done () { s with context := c' } ∧ Moved m s.context c'

/-! ## When they agree -/

/-- For LSR of an amount of 32 on the i386 back end: there is nothing to shift out. For ASR of 32:
    the two upper bits are the same. For a move: the stored carry is the one of `cpsr`; when the
    lower bits of the stored word make another opcode of that of the move, which adds to 0 or
    subtracts from it, the flags are those of that operation. -/
def t1_move.right (o : t1_move) (b : backend) (insn : BitVec 32) (c : arm_registers) : Prop :=
  let rm : BitVec 3 := insn.extractLsb' 3 3
  let x := c.r (rm.setWidth 4)
  match o with
  | .LSL => True
  | .LSR => imm5_of insn = 0 → b = .i386 → x = 0
  | .ASR => imm5_of insn = 0 → x.getLsbD 30 = x.getLsbD 31
  | .MOV =>
    let opcode := (insn.extractLsb' 9 5 ||| c.shifter_carry_out.setWidth 5).toNat
    if opcode ≤ 19 then c.shifter_carry_out.getLsbD 29 = c.cpsr.getLsbD 29
    else if 24 ≤ opcode ∧ opcode ≤ 27 then
      c.cpsr.getLsbD 29 = false ∧ c.cpsr.getLsbD 28 = false
    else insn.extractLsb' 0 8 = 0#8 ∧ c.cpsr.getLsbD 29 = true ∧ c.cpsr.getLsbD 28 = false

instance (o : t1_move) (b : backend) (insn : BitVec 32) (c : arm_registers) :
    Decidable (o.right b insn c) :=
  match o with
  | .LSL => inferInstanceAs (Decidable True)
  | .LSR => inferInstanceAs (Decidable (_ → _ → _))
  | .ASR => inferInstanceAs (Decidable (_ → _))
  | .MOV => inferInstanceAs (Decidable (ite _ _ _))

section values

variable (b : backend) (x : BitVec 32) (n : BitVec 8)

/-- The amount that a back end shifts a word by. -/
def backend.count (b : backend) (n : Nat) : Nat :=
  match b with
  | .x86_64 => n % 64
  | .i386 => n % 32

theorem count_of_lt {n : Nat} (h : n < 32) : b.count n = n := by
  cases b
  · exact Nat.mod_eq_of_lt (by omega)
  · exact Nat.mod_eq_of_lt h

/-- A word and an amount in the frame of the i386 back end. -/
theorem i386_shift (o : I386.word_op) : backend.i386.binop o (x.setWidth 64) (mk_8 n) =
    (o.result x (n.setWidth 32)).setWidth 64 := by
  have hx : (x.setWidth 64).setWidth 32 = x := setWidth_word x
  have hn : (mk_8 n).setWidth 32 = n.setWidth 32 := by
    apply BitVec.eq_of_toNat_eq
    simp only [mk_8, BitVec.toNat_setWidth]
    omega
  show (o.result ((x.setWidth 64).setWidth 32) ((mk_8 n).setWidth 32)).setWidth 64 = _
  rw [hx, hn]

theorem i386_amount : (n.setWidth 32).toNat % 256 % 32 = n.toNat % 32 := by
  rw [BitVec.toNat_setWidth]
  omega

theorem shl_value : b.add_shl_32 (x.setWidth 64) (mk_8 n) = (x <<< b.count n.toNat).setWidth 64 := by
  cases b with
  | x86_64 =>
    show add_shl_32 (x.setWidth 64) (mk_8 n) = _
    rw [shl_32, toNat_mk_8]
    rfl
  | i386 =>
    refine (i386_shift x n .SHL).trans ?_
    show (x <<< ((n.setWidth 32).toNat % 256 % 32)).setWidth 64 = (x <<< (n.toNat % 32)).setWidth 64
    rw [i386_amount]

theorem shr_value : b.add_shr_32 (x.setWidth 64) (mk_8 n) = (x >>> b.count n.toNat).setWidth 64 := by
  cases b with
  | x86_64 =>
    show add_shr_32 (x.setWidth 64) (mk_8 n) = _
    rw [shr_32, toNat_mk_8]
    rfl
  | i386 =>
    refine (i386_shift x n .SHR).trans ?_
    show (x >>> ((n.setWidth 32).toNat % 256 % 32)).setWidth 64 = (x >>> (n.toNat % 32)).setWidth 64
    rw [i386_amount]

theorem asr_value : b.add_asr_32 (x.setWidth 64) (mk_8 n) =
    (x.sshiftRight (b.count n.toNat)).setWidth 64 := by
  cases b with
  | x86_64 =>
    show add_asr_32 (x.setWidth 64) (mk_8 n) = _
    rw [asr_32, toNat_mk_8]
    rfl
  | i386 =>
    refine (i386_shift x n .ASR).trans ?_
    show (x.sshiftRight ((n.setWidth 32).toNat % 256 % 32)).setWidth 64 =
      (x.sshiftRight (n.toNat % 32)).setWidth 64
    rw [i386_amount]

/-- The values of the shifts, for amounts of 0 too. -/
theorem lsl_amount (m : Nat) (c : Bool) : (Shift_C x .LSL m c).1 = x <<< m := by
  by_cases h : m = 0
  · subst h
    exact (BitVec.shiftLeft_zero x).symm
  · rw [Shift_C_LSL x h, LSL_C_result]

theorem lsr_amount (m : Nat) (c : Bool) : (Shift_C x .LSR m c).1 = x >>> m := by
  by_cases h : m = 0
  · subst h
    exact (BitVec.ushiftRight_zero x).symm
  · rw [Shift_C_LSR x h, LSR_C_result]

theorem asr_amount (m : Nat) (c : Bool) : (Shift_C x .ASR m c).1 = x.sshiftRight m := by
  by_cases h : m = 0
  · subst h
    exact (BitVec.sshiftRight_zero).symm
  · rw [Shift_C_ASR x h, ASR_C_result]

theorem or_value (y : BitVec 32) :
    b.add_or_32 (x.setWidth 64) (y.setWidth 64) = (x ||| y).setWidth 64 := by
  cases b with
  | x86_64 => exact or_32 x y
  | i386 =>
    show (((x.setWidth 64).setWidth 32) ||| ((y.setWidth 64).setWidth 32)).setWidth 64 = _
    rw [setWidth_word, setWidth_word]

end values

/-! ## Runs -/

section runs

variable {b : backend} {context : arm_target} {it insn : BitVec 32} (e : host_env)
  (s : machine arm_registers)

/-- The flags that the helper gives for what is stored. -/
def next_flags (opcode : BitVec 5) (sco rn op old : BitVec 32) : BitVec 32 :=
  thumb_hlp_compute_next_flags (opcode.setWidth 32 ||| sco) rn op old

theorem run_mk_next_flags (opcode : BitVec 5) (rn op : BitVec 32) :
    mk_next_flags b opcode (rn.setWidth 64) (op.setWidth 64) e s =
      .done ((next_flags opcode s.context.shifter_carry_out rn op s.context.cpsr).setWidth 64) s := by
  show outcome.done ((thumb_hlp_compute_next_flags
    ((b.add_or_32 (mk_32 (opcode.setWidth 32)) (s.context.shifter_carry_out.setWidth 64)).setWidth 32)
    ((rn.setWidth 64).setWidth 32) ((op.setWidth 64).setWidth 32)
    ((s.context.cpsr.setWidth 64).setWidth 32)).setWidth 64) s = _
  rw [mk_32, or_value, setWidth_word, setWidth_word, setWidth_word, setWidth_word]
  rfl

/-- A register of three bits is not the pc. -/
theorem run_low_register (i : BitVec 3) : thumb_read_reg context (i.setWidth 4) e s =
    .done ((s.context.r (i.setWidth 4)).setWidth 64) s := by
  have hne : ∀ i : BitVec 3, i.setWidth 4 ≠ 15 := by decide
  rw [run_thumb_read_reg, thumb_operand, if_neg (hne i)]

theorem run_mk_sco (mode x op : BitVec 32) : mk_sco (mk_32 mode) (x.setWidth 64) (mk_32 op) e s =
    .done ((arm_hlp_compute_sco mode x op s.context.cpsr).setWidth 64) s := by
  show outcome.done ((arm_hlp_compute_sco ((mk_32 mode).setWidth 32) ((x.setWidth 64).setWidth 32)
    ((mk_32 op).setWidth 32) ((s.context.cpsr.setWidth 64).setWidth 32)).setWidth 64) s = _
  simp only [mk_32, setWidth_word]

/-- The state after a shift outside of an IT block. -/
theorem run_t1_shift {add_shift : BitVec 64 → BitVec 64 → BitVec 64} {mode : BitVec 32}
    {imm5 : BitVec 8} {result : BitVec 32} {carry : Bool} (hit : inItBlock it = false)
    (hresult : add_shift ((s.context.r ((insn.extractLsb' 3 3).setWidth 4)).setWidth 64) (mk_8 imm5) =
      result.setWidth 64)
    (hcarry : arm_hlp_compute_sco mode (s.context.r ((insn.extractLsb' 3 3).setWidth 4))
      (imm5.setWidth 32) s.context.cpsr = carry_bit carry) :
    mk_t1_shift_immediate b context it insn add_shift mode imm5 e s = .done () { s with
      context := {
        r := Function.update s.context.r ((insn.extractLsb' 0 3).setWidth 4) result
        cpsr := next_flags (insn.extractLsb' 9 5) (carry_bit carry) result result s.context.cpsr
        shifter_carry_out := carry_bit carry } } := by
  have hsco := run_mk_sco e s mode (s.context.r ((insn.extractLsb' 3 3).setWidth 4)) (imm5.setWidth 32)
  rw [hcarry] at hsco
  unfold mk_t1_shift_immediate
  simp only [hit, Bool.not_false, if_true, run_bind, run_low_register, hresult, hsco, write_sco,
    run_write, run_mk_next_flags, write_reg, write_cpsr, setWidth_word]

/-- The state after a move outside of an IT block. -/
theorem run_t1_mov (hit : inItBlock it = false) :
    dis_t1_mov_immediate b it insn e s = .done () { s with
      context := { s.context with
        r := Function.update s.context.r ((insn.extractLsb' 8 3).setWidth 4)
          ((insn.extractLsb' 0 8).setWidth 32)
        cpsr := next_flags (insn.extractLsb' 9 5) s.context.shifter_carry_out 0
          ((insn.extractLsb' 0 8).setWidth 32) s.context.cpsr } } := by
  unfold dis_t1_mov_immediate
  simp only [hit, Bool.not_false, if_true, run_bind, mk_32, run_mk_next_flags]
  show outcome.done () _ = _
  simp only [setWidth_word]

end runs

/-! ## Flags -/

section flags

variable (opcode : BitVec 5) (sco rn op old : BitVec 32)

/-- The flags that are computed: the lower bits of the stored word are part of the opcode. -/
def stored_flags : flags :=
  let f := thumb_form (opcode ||| sco.setWidth 5) rn op (sco.getLsbD 29)
  f.o.flags f.rn f.op f.sco (old.getLsbD 29) (old.getLsbD 28)

theorem next_flags_word : next_flags opcode sco rn op old = (stored_flags opcode sco rn op old).word old := by
  have hlow : (opcode.setWidth 32 ||| sco).setWidth 5 = opcode ||| sco.setWidth 5 := by
    rw [BitVec.setWidth_or]
    simp
  have hcarry : (opcode.setWidth 32 ||| sco).getLsbD 29 = sco.getLsbD 29 := by
    rw [BitVec.getLsbD_or, BitVec.getLsbD_setWidth, BitVec.getLsbD_of_ge opcode 29 (by decide)]
    simp
  rw [next_flags, thumb_next_flags, form_next_flags, hlow, hcarry]
  rfl

theorem word_inj {f g : flags} : f.word old = g.word old ↔ f = g := by
  constructor
  · intro h
    have hf := getLsbD_word_flags f old
    rw [h] at hf
    have hg := getLsbD_word_flags g old
    exact flags.ext (hf.1.symm.trans hg.1) (hf.2.1.symm.trans hg.2.1)
      (hf.2.2.1.symm.trans hg.2.2.1) (hf.2.2.2.symm.trans hg.2.2.2)
  · intro h
    rw [h]

/-- The carry of a shift has no bit of the opcode. -/
theorem stored_shift {carry : Bool} (h : opcode.toNat ≤ 11) :
    stored_flags opcode (carry_bit carry) rn op old = logical op carry (old.getLsbD 28) := by
  have hlow : (carry_bit carry).setWidth 5 = 0#5 ∧ (carry_bit carry).getLsbD 29 = carry := by
    cases carry <;> decide
  have hform : thumb_form opcode rn op carry = ⟨.MOV, rn, op, carry⟩ := by
    unfold thumb_form
    generalize opcode.toNat = n at h
    interval_cases n <;> rfl
  unfold stored_flags
  rw [hlow.1, hlow.2, BitVec.or_zero, hform]
  rfl

/-- The flags of an opcode with the bit of 16. -/
theorem form_of_ge {opcode : BitVec 5} {rn op : BitVec 32} {sco c v : Bool}
    (h : 16 ≤ opcode.toNat) :
    (thumb_form opcode rn op sco).o.flags (thumb_form opcode rn op sco).rn
      (thumb_form opcode rn op sco).op (thumb_form opcode rn op sco).sco c v =
      if opcode.toNat ≤ 19 then logical op sco v
      else if 24 ≤ opcode.toNat ∧ opcode.toNat ≤ 27 then (add rn op false).2
      else (add rn (~~~ op) true).2 := by
  have hlt := opcode.isLt
  unfold thumb_form
  generalize opcode.toNat = n at h hlt
  interval_cases n <;> rfl

theorem logical_carry {r : BitVec 32} {c c' v : Bool} : logical r c v = logical r c' v ↔ c = c' := by
  simp [logical]

/-- A move of an immediate whose opcode is read as the one of an addition or of a subtraction. -/
theorem add_as_move (imm : BitVec 8) (c v : Bool) :
    (add 0 (imm.setWidth 32) false).2 = logical (imm.setWidth 32) c v ↔ c = false ∧ v = false := by
  revert imm c v
  decide +kernel

theorem sub_as_move (imm : BitVec 8) (c v : Bool) :
    (add 0 (~~~ (imm.setWidth 32)) true).2 = logical (imm.setWidth 32) c v ↔
      imm = 0 ∧ c = true ∧ v = false := by
  revert imm c v
  decide +kernel

end flags

/-! ## The instructions -/

section instructions

variable {b : backend} {context : arm_target} {it insn : BitVec 32} {e : host_env}
  {s : machine arm_registers}

/-- A run is right when the value and the flags that it ends with are. -/
theorem executes_iff {p : Run arm_registers Unit} {result sco : BitVec 32} {f : flags} {m : moved}
    (hrun : p e s = .done () { s with
      context := {
        r := Function.update s.context.r (m.rd.setWidth 4) result
        cpsr := f.word s.context.cpsr
        shifter_carry_out := sco } }) :
    Executes p e s m ↔
      result = m.result ∧ f = logical m.result m.carry (s.context.cpsr.getLsbD 28) := by
  constructor
  · rintro ⟨c', hc', hmoved⟩
    rw [hrun] at hc'
    injection hc' with _ hstate
    have hcontext := congrArg machine.context hstate
    subst hcontext
    have hvalue := congrFun hmoved.registers (m.rd.setWidth 4)
    simp only [Function.update_self] at hvalue
    exact ⟨hvalue, (word_inj _).mp hmoved.flags⟩
  · rintro ⟨hvalue, hflags⟩
    exact ⟨_, hrun, by rw [hvalue], by rw [hflags]⟩

/-- A shift is right when the value is and the carry is. -/
theorem shift_executes {add_shift : BitVec 64 → BitVec 64 → BitVec 64} {mode : BitVec 32}
    {imm5 : BitVec 8} {result : BitVec 32} {carry : Bool} (type : BitVec 2)
    (hit : inItBlock it = false) (hop : (insn.extractLsb' 9 5).toNat ≤ 11)
    (hresult : add_shift ((s.context.r ((insn.extractLsb' 3 3).setWidth 4)).setWidth 64) (mk_8 imm5) =
      result.setWidth 64)
    (hcarry : arm_hlp_compute_sco mode (s.context.r ((insn.extractLsb' 3 3).setWidth 4))
      (imm5.setWidth 32) s.context.cpsr = carry_bit carry) :
    let m := t1_shift insn s.context type
    Executes (mk_t1_shift_immediate b context it insn add_shift mode imm5) e s m ↔
      result = m.result ∧ carry = m.carry := by
  have hrun : mk_t1_shift_immediate b context it insn add_shift mode imm5 e s = _ :=
    run_t1_shift e s hit hresult hcarry
  rw [next_flags_word, stored_shift _ _ _ _ hop] at hrun
  refine (executes_iff (m := t1_shift insn s.context type) hrun).trans ?_
  constructor
  · rintro ⟨hvalue, hflags⟩
    rw [hvalue] at hflags
    exact ⟨hvalue, logical_carry.mp hflags⟩
  · rintro ⟨hvalue, hcarries⟩
    exact ⟨hvalue, by rw [hvalue, hcarries]⟩

/-- The field of the amount as the translations pass it. -/
theorem count_field (imm : BitVec 5) : b.count (imm.setWidth 8).toNat = imm.toNat := by
  have hlt := imm.isLt
  have htoNat : (imm.setWidth 8).toNat = imm.toNat := by
    rw [BitVec.toNat_setWidth]
    omega
  rw [htoNat, count_of_lt b hlt]

theorem field_sco (mode : BitVec 32) (type : BitVec 2) (imm : BitVec 5) (x cpsr : BitVec 32)
    (hform : mode.getLsbD 4 = false) (htype : mode.extractLsb' 5 2 = type) :
    arm_hlp_compute_sco mode x ((imm.setWidth 8).setWidth 32) cpsr =
      let shift := DecodeImmShift type imm
      carry_bit (Shift_C x shift.1 shift.2 (cpsr.getLsbD 29)).2 := by
  have hword : (imm.setWidth 8).setWidth 32 = imm.setWidth 32 := by
    apply BitVec.eq_of_toNat_eq
    simp only [BitVec.toNat_setWidth]
    omega
  rw [hword, arm_immediate_sco mode x cpsr imm hform, htype]

section shifts

variable (hit : inItBlock it = false) (hop : (insn.extractLsb' 9 5).toNat ≤ 11)
include hit hop

theorem lsl_executes : Executes (dis_t1_lsl_immediate b context it insn) e s
    (t1_shift insn s.context 0) := by
  have hresult := shl_value b (s.context.r ((insn.extractLsb' 3 3).setWidth 4))
    ((imm5_of insn).setWidth 8)
  have hcarry := field_sco 0 0 (imm5_of insn) (s.context.r ((insn.extractLsb' 3 3).setWidth 4))
    s.context.cpsr (by decide) (by decide)
  refine (shift_executes 0 hit hop hresult hcarry).mpr ⟨?_, rfl⟩
  rw [count_field]
  exact (lsl_amount _ _ _).symm

/-- A shift by something else than 32. -/
theorem lsr_executes (h0 : imm5_of insn ≠ 0) : Executes (dis_t1_lsr_immediate b context it insn) e s
    (t1_shift insn s.context 1) := by
  have hresult := shr_value b (s.context.r ((insn.extractLsb' 3 3).setWidth 4))
    ((imm5_of insn).setWidth 8)
  have hcarry := field_sco (1#32 <<< 5) 1 (imm5_of insn)
    (s.context.r ((insn.extractLsb' 3 3).setWidth 4)) s.context.cpsr (by decide) (by decide)
  unfold dis_t1_lsr_immediate
  rw [if_neg h0]
  refine (shift_executes 1 hit hop hresult hcarry).mpr ⟨?_, rfl⟩
  rw [count_field]
  show _ = (Shift_C _ .LSR (if imm5_of insn = 0 then 32 else (imm5_of insn).toNat) _).1
  rw [if_neg h0]
  exact (lsr_amount _ _ _).symm

theorem asr_executes (h0 : imm5_of insn ≠ 0) : Executes (dis_t1_asr_immediate b context it insn) e s
    (t1_shift insn s.context 2) := by
  have hresult := asr_value b (s.context.r ((insn.extractLsb' 3 3).setWidth 4))
    ((imm5_of insn).setWidth 8)
  have hcarry := field_sco (2#32 <<< 5) 2 (imm5_of insn)
    (s.context.r ((insn.extractLsb' 3 3).setWidth 4)) s.context.cpsr (by decide) (by decide)
  unfold dis_t1_asr_immediate
  rw [if_neg h0]
  refine (shift_executes 2 hit hop hresult hcarry).mpr ⟨?_, rfl⟩
  rw [count_field]
  show _ = (Shift_C _ .ASR (if imm5_of insn = 0 then 32 else (imm5_of insn).toNat) _).1
  rw [if_neg h0]
  exact (asr_amount _ _ _).symm

/-- A shift by 32 gives 0 and the upper bit, which the i386 back end does not compute. -/
theorem lsr_32_executes (h0 : imm5_of insn = 0) :
    Executes (dis_t1_lsr_immediate b context it insn) e s (t1_shift insn s.context 1) ↔
      (b = .i386 → s.context.r ((insn.extractLsb' 3 3).setWidth 4) = 0) := by
  have hresult := shr_value b (s.context.r ((insn.extractLsb' 3 3).setWidth 4)) 32
  have hcarry : arm_hlp_compute_sco (1#32 <<< 5) (s.context.r ((insn.extractLsb' 3 3).setWidth 4))
      ((32#8).setWidth 32) s.context.cpsr = _ := lsr_sco _ s.context.cpsr 32
  have hmoved : t1_shift insn s.context 1 = ⟨insn.extractLsb' 0 3, 0,
      (Shift_C (s.context.r ((insn.extractLsb' 3 3).setWidth 4)) .LSR 32
        (s.context.cpsr.getLsbD 29)).2⟩ := by
    unfold t1_shift
    rw [h0]
    show moved.mk _ (Shift_C _ .LSR 32 _).1 _ = _
    rw [lsr_amount, BitVec.ushiftRight_eq_zero (by decide)]
    rfl
  unfold dis_t1_lsr_immediate
  rw [if_pos h0]
  refine (shift_executes 1 hit hop hresult hcarry).trans ?_
  rw [hmoved]
  cases b with
  | x86_64 =>
    have hzero : s.context.r ((insn.extractLsb' 3 3).setWidth 4) >>> backend.x86_64.count 32 = 0 :=
      BitVec.ushiftRight_eq_zero (by decide)
    simp [hzero]
  | i386 =>
    have hself : s.context.r ((insn.extractLsb' 3 3).setWidth 4) >>> backend.i386.count 32 =
        s.context.r ((insn.extractLsb' 3 3).setWidth 4) := BitVec.ushiftRight_zero _
    simp [hself]

/-- A shift by 31 in the place of one by 32 gives the same value, and the carry of bit 30. -/
theorem asr_32_executes (h0 : imm5_of insn = 0) :
    Executes (dis_t1_asr_immediate b context it insn) e s (t1_shift insn s.context 2) ↔
      (s.context.r ((insn.extractLsb' 3 3).setWidth 4)).getLsbD 30 =
        (s.context.r ((insn.extractLsb' 3 3).setWidth 4)).getLsbD 31 := by
  have hresult := asr_value b (s.context.r ((insn.extractLsb' 3 3).setWidth 4)) 31
  have hcarry : arm_hlp_compute_sco (2#32 <<< 5) (s.context.r ((insn.extractLsb' 3 3).setWidth 4))
      ((31#8).setWidth 32) s.context.cpsr = _ := asr_sco _ s.context.cpsr 31
  have hmoved : t1_shift insn s.context 2 = ⟨insn.extractLsb' 0 3,
      (s.context.r ((insn.extractLsb' 3 3).setWidth 4)).sshiftRight 32,
      (s.context.r ((insn.extractLsb' 3 3).setWidth 4)).getLsbD 31⟩ := by
    unfold t1_shift
    rw [h0]
    show moved.mk _ (Shift_C _ .ASR 32 _).1 (ASR_C _ 32).2 = _
    rw [asr_amount, ASR_C_carry _ 32 (by decide)]
    rfl
  have hvalue : (s.context.r ((insn.extractLsb' 3 3).setWidth 4)).sshiftRight 31 =
      (s.context.r ((insn.extractLsb' 3 3).setWidth 4)).sshiftRight 32 := by
    rw [← host_sar_31, host_sar_of_lt _ (by decide)]
  have hbit : (Shift_C (s.context.r ((insn.extractLsb' 3 3).setWidth 4)) .ASR 31
      (s.context.cpsr.getLsbD 29)).2 = (s.context.r ((insn.extractLsb' 3 3).setWidth 4)).getLsbD 30 := by
    show (ASR_C _ 31).2 = _
    rw [ASR_C_carry _ 31 (by decide)]
    rfl
  unfold dis_t1_asr_immediate
  rw [if_pos h0]
  refine (shift_executes 2 hit hop hresult hcarry).trans ?_
  have hcount : b.count (BitVec.toNat (31 : BitVec 8)) = 31 := count_of_lt b (by decide)
  rw [hmoved, hcount, hvalue, hbit]
  exact and_iff_right rfl

end shifts

/-- The flags of a move, by the opcode that the helper reads. -/
theorem mov_executes (hit : inItBlock it = false) (hop : 16 ≤ (insn.extractLsb' 9 5).toNat) :
    Executes (dis_t1_mov_immediate b it insn) e s (t1_move.MOV.execute insn s.context) ↔
      t1_move.MOV.right b insn s.context := by
  have hrun : dis_t1_mov_immediate b it insn e s = _ := run_t1_mov e s hit
  rw [next_flags_word] at hrun
  refine (executes_iff (m := t1_move.MOV.execute insn s.context) hrun).trans ?_
  show _ ∧ _ = logical ((insn.extractLsb' 0 8).setWidth 32) (s.context.cpsr.getLsbD 29) _ ↔ _
  refine (and_iff_right rfl).trans ?_
  unfold stored_flags t1_move.right
  -- the bit of 16 is in the opcode, whatever is or-ed to it
  have hge : 16 ≤ (insn.extractLsb' 9 5 ||| s.context.shifter_carry_out.setWidth 5).toNat := by
    rw [BitVec.toNat_or]
    exact le_trans hop Nat.left_le_or
  rw [form_of_ge hge]
  dsimp only
  split_ifs with hmov hadd
  · exact logical_carry
  · exact add_as_move _ _ _
  · exact sub_as_move _ _ _

/-- Outside of an IT block an instruction does what the architecture defines, exactly when it is
    not a shift to the right by 32 that loses its value or its carry, or a move that takes a
    stored carry for the one of `cpsr`. -/
theorem t1_moves_executed {o : t1_move} (ho : t1_move.of insn = some o) (hit : inItBlock it = false) :
    Executes (o.translation b context it insn) e s (o.execute insn s.context) ↔
      o.right b insn s.context := by
  unfold t1_move.of at ho
  by_cases hlsl : (insn.extractLsb' 9 5).toNat ≤ 3
  · rw [if_pos hlsl] at ho
    cases ho
    exact iff_of_true (lsl_executes hit (by omega)) trivial
  rw [if_neg hlsl] at ho
  by_cases hlsr : (insn.extractLsb' 9 5).toNat ≤ 7
  · rw [if_pos hlsr] at ho
    cases ho
    by_cases h0 : imm5_of insn = 0
    · exact (lsr_32_executes hit (by omega) h0).trans (by simp [t1_move.right, h0])
    · exact iff_of_true (lsr_executes hit (by omega) h0) fun h => absurd h h0
  rw [if_neg hlsr] at ho
  by_cases hasr : (insn.extractLsb' 9 5).toNat ≤ 11
  · rw [if_pos hasr] at ho
    cases ho
    by_cases h0 : imm5_of insn = 0
    · exact (asr_32_executes hit hasr h0).trans (by simp [t1_move.right, h0])
    · exact iff_of_true (asr_executes hit hasr h0) fun h => absurd h h0
  rw [if_neg hasr] at ho
  by_cases hmov : 16 ≤ (insn.extractLsb' 9 5).toNat ∧ (insn.extractLsb' 9 5).toNat ≤ 19
  · rw [if_pos hmov] at ho
    cases ho
    exact mov_executes hit hmov.1
  · rw [if_neg hmov] at ho
    cases ho

/-- A guest with one value in all its registers. -/
def filled (r cpsr sco : BitVec 32) : machine arm_registers := ⟨⟨fun _ => r, cpsr, sco⟩, fun _ => 0⟩

/-- LSRS r0, r1, #32. -/
theorem lsrs_executed : inItBlock 0 = false ∧ t1_move.of 0x0808 = some .LSR ∧
    Executes (t1_move.LSR.translation .x86_64 ⟨0, 0⟩ 0 0x0808) ⟨fun _ _ => true, fun _ _ => 0⟩
      (filled 0x80000000 0 0) ⟨0, 0, true⟩ :=
  ⟨by decide, by decide, (t1_moves_executed (o := .LSR) (by decide) (by decide)).mpr fun _ h => by cases h⟩

/-- LSRS r0, r1, #32 of 1 on i386, ASRS r0, r1, #32 of the upper bit, and MOVS r0, #1 after a shift
    has stored a carry and a comparison has cleared the one of `cpsr`. -/
theorem t1_moves_wrong :
    ¬ Executes (t1_move.LSR.translation .i386 ⟨0, 0⟩ 0 0x0808) ⟨fun _ _ => true, fun _ _ => 0⟩
      (filled 1 0 0) (t1_move.LSR.execute 0x0808 (filled 1 0 0).context) ∧
    ¬ Executes (t1_move.ASR.translation .x86_64 ⟨0, 0⟩ 0 0x1008) ⟨fun _ _ => true, fun _ _ => 0⟩
      (filled 0x80000000 0 0) (t1_move.ASR.execute 0x1008 (filled 0x80000000 0 0).context) ∧
    ¬ Executes (t1_move.MOV.translation .x86_64 ⟨0, 0⟩ 0 0x2001) ⟨fun _ _ => true, fun _ _ => 0⟩
      (filled 0 0 0x20000000) (t1_move.MOV.execute 0x2001 (filled 0 0 0x20000000).context) := by
  refine ⟨fun h => ?_, fun h => ?_, fun h => ?_⟩
  · exact absurd ((lsr_32_executes (by decide) (by decide) (by decide)).mp h rfl) (by decide)
  · exact absurd ((asr_32_executes (by decide) (by decide) (by decide)).mp h) (by decide)
  · have hmov : Executes (dis_t1_mov_immediate .x86_64 0 0x2001) _ (filled 0 0 0x20000000)
        (t1_move.MOV.execute 0x2001 (filled 0 0 0x20000000).context) := h
    exact absurd ((mov_executes (by decide) (by decide)).mp hmov) (by decide)

end instructions

end Umeq.Arm
