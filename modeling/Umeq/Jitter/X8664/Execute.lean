import Umeq.Jitter.X8664.Run
import Umeq.Jitter.X8664.Values
import Umeq.Lib.Shifts

/-! # Guest instructions, run on the host

    A disassembler describes a guest instruction with calls of the builders. The
    representation has no jumps inside of a guest instruction, and its registers are
    written once, so that a call can be run when it is made: a register of the
    representation is here the content of the host register that stands for it.

    * `host_result` is what the code of a binary operation leaves there, and `host_cast`
      that of a cast. Operands and results are whole registers: what lies above the width of an
      operation is seen where the host sees it.
    * `Run` has the effects: the registers of the guest (`context`), its memory, and the
      accesses that fault.
-/

namespace Umeq.Jitter.X86_64.Guest

open Bytes Words X86

/-! ## Operations -/

/-- What the code of a binary operation computes; the narrow arithmetic shifts are made of
    three of them. -/
def host_result (type : irBinopType) (w : width) (x y : BitVec 64) : BitVec 64 :=
  if type = .ASR ∧ sign_shift w ≠ 0 then
    low w (((x <<< sign_shift w).sshiftRight (sign_shift w)).sshiftRight (y.toNat % 64))
  else low w (host_binop type w x y)

section lowered

variable {h : helpers} {b : Nat → Fin 8}

/-- A binary operation that is lowered to one. -/
theorem value_host_result (c : cpu) {type : irBinopType} {w : width} (hone : ¬ (type = .ASR ∧ sign_shift w ≠ 0))
    (d o₁ o₂ : Nat) : (x86Instruction.binop w type d o₁ o₂).value h b c =
      host_result type w (view c (b o₁)) (view c (b o₂)) := by
  rw [host_result, if_neg hone]
  rfl

/-- A narrow arithmetic shift, from the state with the constant to that with the result. -/
theorem asr_host_result {c c₁ c₂ c₃ : cpu} {w : width} (hw : sign_shift w ≠ 0)
    {d op1 op2 shiftValue shiftLeftResult shiftRightResult : Nat}
    (hvalue : view c (b shiftValue) = BitVec.ofNat 64 (sign_shift w))
    (h₁ : Executed h b c (.binop .w64 .SHL shiftLeftResult op1 shiftValue) c₁)
    (h₂ : Executed h b c₁ (.binop .w64 .ASR shiftRightResult shiftLeftResult shiftValue) c₂)
    (h₃ : Executed h b c₂ (.binop w .ASR d shiftRightResult op2) c₃)
    (hkept : b shiftValue ≠ b shiftLeftResult) (hop : b op2 ≠ b shiftLeftResult)
    (hop' : b op2 ≠ b shiftRightResult) :
    view c₃ (b d) = host_result .ASR w (view c (b op1)) (view c (b op2)) := by
  have hcount : (BitVec.ofNat 64 (sign_shift w)).toNat % 64 = sign_shift w := by
    cases w <;> rfl
  have hleft : view c₁ (b shiftLeftResult) = view c (b op1) <<< sign_shift w := by
    rw [h₁.view]
    simp only [x86Instruction.dst, Option.map_some, with_result, Function.update_self,
      x86Instruction.value, host_binop, low_w64, hvalue, hcount]
  have hvalue₁ : view c₁ (b shiftValue) = BitVec.ofNat 64 (sign_shift w) := by
    rw [h₁.view, ← hvalue]
    exact Function.update_of_ne hkept _ _
  have hright : view c₂ (b shiftRightResult) =
      (view c (b op1) <<< sign_shift w).sshiftRight (sign_shift w) := by
    rw [h₂.view]
    simp only [x86Instruction.dst, Option.map_some, with_result, Function.update_self,
      x86Instruction.value, host_binop, low_w64, hvalue₁, hcount, hleft]
  have hop₂ : view c₂ (b op2) = view c (b op2) := by
    rw [h₂.view]
    change Function.update _ _ _ _ = _
    rw [Function.update_of_ne hop', h₁.view]
    exact Function.update_of_ne hop _ _
  rw [h₃.view, host_result, if_pos ⟨rfl, hw⟩]
  simp only [x86Instruction.dst, Option.map_some, with_result, Function.update_self,
    x86Instruction.value, host_binop, hright, hop₂]

end lowered

/-! ### The builders of operations -/

def mk_8 (value : BitVec 8) : BitVec 64 := value.setWidth 64

def mk_32 (value : BitVec 32) : BitVec 64 := value.setWidth 64

def mk_64 (value : BitVec 64) : BitVec 64 := value

section builders

variable (op1 op2 : BitVec 64)

def add_add_32 : BitVec 64 := host_result .ADD .w32 op1 op2
def add_add_64 : BitVec 64 := host_result .ADD .w64 op1 op2
def add_sub_32 : BitVec 64 := host_result .SUB .w32 op1 op2
def add_and_32 : BitVec 64 := host_result .AND .w32 op1 op2
def add_and_64 : BitVec 64 := host_result .AND .w64 op1 op2
def add_or_32 : BitVec 64 := host_result .OR .w32 op1 op2
def add_or_64 : BitVec 64 := host_result .OR .w64 op1 op2
def add_shl_32 : BitVec 64 := host_result .SHL .w32 op1 op2
def add_shl_64 : BitVec 64 := host_result .SHL .w64 op1 op2
def add_shr_32 : BitVec 64 := host_result .SHR .w32 op1 op2
def add_shr_64 : BitVec 64 := host_result .SHR .w64 op1 op2
def add_asr_32 : BitVec 64 := host_result .ASR .w32 op1 op2
def add_ror_32 : BitVec 64 := host_result .ROR .w32 op1 op2
def add_ror_64 : BitVec 64 := host_result .ROR .w64 op1 op2

def add_ite_32 (pred trueOp falseOp : BitVec 64) : BitVec 64 := if pred ≠ 0 then trueOp else falseOp

def add_32_to_8 (op : BitVec 64) : BitVec 64 := host_cast .c32_TO_8 op
def add_8U_to_64 (op : BitVec 64) : BitVec 64 := host_cast .c8U_TO_64 op
def add_16U_to_64 (op : BitVec 64) : BitVec 64 := host_cast .c16U_TO_64 op
def add_32U_to_64 (op : BitVec 64) : BitVec 64 := host_cast .c32U_TO_64 op
def add_32S_to_64 (op : BitVec 64) : BitVec 64 := host_cast .c32S_TO_64 op

end builders

/-! ### Words of 32 and 64 bits

    A register that holds a 32-bit word with zeros above it holds one again after each of the
    operations. -/

section words

variable (x x' : BitVec 32) (y : BitVec 64)

theorem low_w32 (y : BitVec 64) : low .w32 y = (y.setWidth 32).setWidth 64 := rfl

@[simp] theorem add_32 :
    add_add_32 (x.setWidth 64) (x'.setWidth 64) = (x + x').setWidth 64 := by
  change low .w32 (x.setWidth 64 + x'.setWidth 64) = _
  rw [low_w32, BitVec.setWidth_add _ _ (by decide)]
  simp

@[simp] theorem sub_32 :
    add_sub_32 (x.setWidth 64) (x'.setWidth 64) = (x - x').setWidth 64 := by
  change low .w32 (x.setWidth 64 - x'.setWidth 64) = _
  rw [low_w32, BitVec.sub_eq_add_neg, BitVec.setWidth_add _ _ (by decide),
    BitVec.setWidth_neg_of_le (by decide)]
  simp [BitVec.sub_eq_add_neg]

@[simp] theorem and_32 :
    add_and_32 (x.setWidth 64) (x'.setWidth 64) = (x &&& x').setWidth 64 := by
  change low .w32 (x.setWidth 64 &&& x'.setWidth 64) = _
  rw [low_w32, BitVec.setWidth_and]
  simp

@[simp] theorem or_32 :
    add_or_32 (x.setWidth 64) (x'.setWidth 64) = (x ||| x').setWidth 64 := by
  change low .w32 (x.setWidth 64 ||| x'.setWidth 64) = _
  rw [low_w32, BitVec.setWidth_or]
  simp

/-- A shift of 32 bits is done on the whole register. -/
theorem shl_32 : add_shl_32 (x.setWidth 64) y = (x <<< (y.toNat % 64)).setWidth 64 := by
  change low .w32 (x.setWidth 64 <<< (y.toNat % 64)) = _
  rw [low_w32, BitVec.setWidth_shiftLeft_of_le (by decide)]
  simp

theorem shr_32 : add_shr_32 (x.setWidth 64) y = (x >>> (y.toNat % 64)).setWidth 64 := by
  change low .w32 (x.setWidth 64 >>> (y.toNat % 64)) = _
  apply BitVec.eq_of_getLsbD_eq
  intro i hi
  simp only [low_w32, BitVec.getLsbD_setWidth, BitVec.getLsbD_ushiftRight]
  by_cases h : i < 32
  · simp only [hi, h, decide_true, Bool.true_and]
    by_cases h' : y.toNat % 64 + i < 64
    · simp [h']
    · rw [BitVec.getLsbD_of_ge x _ (by omega)]
      simp
  · rw [BitVec.getLsbD_of_ge x _ (by omega)]
    simp [h]

theorem asr_32 : add_asr_32 (x.setWidth 64) y = (x.sshiftRight (y.toNat % 64)).setWidth 64 := by
  change low .w32 (((x.setWidth 64 <<< sign_shift .w32).sshiftRight (sign_shift .w32)).sshiftRight
    (y.toNat % 64)) = _
  have hbit : ∀ j, j < 64 → ((x.setWidth 64 <<< sign_shift .w32).sshiftRight
      (sign_shift .w32)).getLsbD j = x.getLsbD (if j < 32 then j else 31) := by
    intro j hj
    rw [getLsbD_sign_extend .w32 _ hj, BitVec.getLsbD_setWidth]
    by_cases h : j < 32
    · simp [width.bits, h, hj]
    · simp [width.bits, h]
  generalize (x.setWidth 64 <<< sign_shift .w32).sshiftRight (sign_shift .w32) = extended at *
  apply BitVec.eq_of_getLsbD_eq
  intro i hi
  rw [low_w32, BitVec.getLsbD_setWidth, BitVec.getLsbD_setWidth, BitVec.getLsbD_setWidth,
    BitVec.getLsbD_sshiftRight, BitVec.getLsbD_sshiftRight, BitVec.msb_eq_getLsbD_last,
    BitVec.msb_eq_getLsbD_last]
  by_cases h : i < 32
  · have h₁ : ¬ 64 ≤ i := by omega
    have h₂ : ¬ 32 ≤ i := by omega
    simp only [hi, h, h₁, h₂, decide_true, decide_false, Bool.true_and, Bool.not_false]
    by_cases hin : y.toNat % 64 + i < 64
    · rw [if_pos hin, hbit _ hin]
      split_ifs <;> rfl
    · rw [if_neg hin, if_neg (by omega), hbit _ (by decide)]
      rfl
  · have h₂ : 32 ≤ i := by omega
    simp [h, h₂]

theorem ror_32 : add_ror_32 (x.setWidth 64) y = (x.rotateRight (y.toNat % 32)).setWidth 64 := by
  have hcount : shift_count .w32 (y.toNat % 256) = y.toNat % 32 := by
    simp only [shift_count]
    rw [if_neg (by decide), Nat.mod_mod_of_dvd _ (by decide)]
  change low .w32 (merge .w32 (x.setWidth 64) (shift.ror.eval .w32 (x.setWidth 64)
    (shift_count .w32 (y.toNat % 256)))) = _
  rw [low_merge, hcount, low_w32, shift.eval]
  simp [width.bits]

@[simp] theorem add_64 (x : BitVec 64) : add_add_64 x y = x + y := low_w64 _
@[simp] theorem and_64 (x : BitVec 64) : add_and_64 x y = x &&& y := low_w64 _
@[simp] theorem or_64 (x : BitVec 64) : add_or_64 x y = x ||| y := low_w64 _
theorem shl_64 (x : BitVec 64) : add_shl_64 x y = x <<< (y.toNat % 64) := low_w64 _
theorem shr_64 (x : BitVec 64) : add_shr_64 x y = x >>> (y.toNat % 64) := low_w64 _

theorem ror_64 (x : BitVec 64) : add_ror_64 x y = x.rotateRight (y.toNat % 64) := by
  change low .w64 (merge .w64 x (shift.ror.eval .w64 x (shift_count .w64 (y.toNat % 256)))) = _
  rw [low_w64, merge_w64, shift_count_w64, shift.eval]
  simp [width.bits]

theorem toNat_mk_8 (n : BitVec 8) : (mk_8 n).toNat = n.toNat := by
  rw [mk_8, BitVec.toNat_setWidth]
  omega

@[simp] theorem to_8 : add_32_to_8 (x.setWidth 64) = (x.setWidth 8).setWidth 64 := by
  change low .w8 (x.setWidth 64) = _
  apply BitVec.eq_of_getLsbD_eq
  intro i hi
  simp only [low, width.bits, BitVec.getLsbD_setWidth]
  by_cases h : i < 8 <;> simp [h, hi]

theorem from_8U : add_8U_to_64 y = (y.setWidth 8).setWidth 64 := rfl

theorem from_16U : add_16U_to_64 y = (y.setWidth 16).setWidth 64 := rfl

theorem from_32U : add_32U_to_64 y = (y.setWidth 32).setWidth 64 := rfl

theorem from_32S : add_32S_to_64 (x.setWidth 64) = x.signExtend 64 := by
  change (x.setWidth 64 <<< 32).sshiftRight 32 = _
  have h := Shifts.sign_extend_shifts (w := 64) (n := 32) (u := 0) x (by decide) rfl (by decide)
  simpa using h

end words

/-! ## Effects -/

/-- The registers of the guest and its memory. -/
structure machine (C : Type) where
  context : C
  mem : Mem

/-- How a guest instruction ends. `illegal` is a failed assert of the disassembler. -/
inductive outcome (C α : Type) where
  | done (a : α) (s : machine C)
  | fault (s : machine C)
  | illegal

/-- Which accesses the guest may make, and what is in a host register before a byte or a half
    word is loaded into it. -/
structure host_env where
  accessible : Nat → width → Bool
  left : Nat → width → BitVec 64

def Run (C α : Type) : Type := host_env → machine C → outcome C α

section effects

variable {C α β : Type}

instance : Monad (Run C) where
  pure a := fun _ s => .done a s
  bind p f := fun e s => match p e s with
    | .done a s => f a e s
    | .fault s => .fault s
    | .illegal => .illegal

theorem Run.id_map (p : Run C α) : id <$> p = p := by
  funext e s
  change (match p e s with
    | .done a s => .done a s
    | .fault s => .fault s
    | .illegal => .illegal) = p e s
  cases p e s <;> rfl

theorem Run.bind_assoc {γ : Type} (p : Run C α) (f : α → Run C β) (g : β → Run C γ) :
    p >>= f >>= g = p >>= fun a => f a >>= g := by
  funext e s
  change (match (match p e s with
      | .done a s => f a e s
      | .fault s => .fault s
      | .illegal => .illegal : outcome C β) with
    | .done b s => g b e s
    | .fault s => .fault s
    | .illegal => .illegal) = match p e s with
    | .done a s => (f a >>= g) e s
    | .fault s => .fault s
    | .illegal => .illegal
  cases p e s <;> rfl

instance : LawfulMonad (Run C) :=
  LawfulMonad.mk' (Run C) Run.id_map (fun _ _ => rfl) Run.bind_assoc

def assert_illegal_opcode (p : Prop) [Decidable p] : Run C Unit := fun _ s =>
  if p then .done () s else .illegal

def add_load (w : width) (address : BitVec 64) : Run C (BitVec 64) := fun e s =>
  if e.accessible address.toNat w then
    .done (merge w (e.left address.toNat w) (BitVec.ofNat 64 (s.mem.load address.toNat w.bytes))) s
  else .fault s

def add_store (w : width) (src address : BitVec 64) : Run C Unit := fun e s =>
  if e.accessible address.toNat w then
    .done () { s with mem := s.mem.store address.toNat w.bytes src.toNat }
  else .fault s

/-- A part of the registers of the guest. -/
def add_read_context (f : C → α) : Run C α := fun _ s => .done (f s.context) s

def add_write_context (f : C → C) : Run C Unit := fun _ s => .done () { s with context := f s.context }

variable (e : host_env) (s : machine C)

@[simp] theorem run_pure (a : α) : (pure a : Run C α) e s = .done a s := rfl

@[simp] theorem run_bind (p : Run C α) (f : α → Run C β) : (p >>= f) e s =
    match p e s with
    | .done a s => f a e s
    | .fault s => .fault s
    | .illegal => .illegal := rfl

@[simp] theorem run_read (f : C → α) : add_read_context f e s = .done (f s.context) s := rfl

@[simp] theorem run_write (f : C → C) :
    add_write_context f e s = .done () { s with context := f s.context } := rfl

@[simp] theorem run_ite {c : Prop} [Decidable c] (p q : Run C α) :
    (if c then p else q) e s = if c then p e s else q e s := by
  split_ifs <;> rfl

end effects

end Umeq.Jitter.X86_64.Guest
