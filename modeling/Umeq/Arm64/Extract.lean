import Umeq.Arm64.Registers
import Umeq.Lib.Swaps

/-! # Extraction and reversal in `arm64_disassembler.c`

    EXTR takes a word out of the middle of two registers, with two shifts and an or. RBIT,
    REV, REV16 and REV32 reverse the bits of a register or the bytes of its parts, with
    ladders of masks and shifts.

    The host shifts 64-bit words by an amount modulo 64. EXTR of 64-bit registers with an
    lsb of 0 needs a shift by 64.
-/

namespace Umeq.Arm64

open Jitter.X86_64 Jitter.X86_64.Guest

/-! ## The translations -/

def mk_ror_imm_64 (op : BitVec 64) (rotation : BitVec 8) : BitVec 64 := add_ror_64 op (mk_8 rotation)

def mk_ror_imm_32 (op : BitVec 64) (rotation : BitVec 8) : BitVec 64 := add_ror_32 op (mk_8 rotation)

section translations

variable (insn : BitVec 32)

def dis_extr : Run arm64_registers Unit := do
  let is_64 := insn.getLsbD 31
  let imms : BitVec 8 := (insn.extractLsb' 10 6).setWidth 8
  let rd := insn.extractLsb' 0 5
  let rn := insn.extractLsb' 5 5
  let rm := insn.extractLsb' 16 5
  if rn = rm then
    if is_64 then
      write_x rd (mk_ror_imm_64 (← read_x rm ZERO_REG) imms) ZERO_REG
    else
      write_w rd (mk_ror_imm_32 (← read_w rm ZERO_REG) imms) ZERO_REG
  else
    if is_64 then
      let low := add_shr_64 (← read_x rm ZERO_REG) (mk_8 imms)
      let high := add_shl_64 (← read_x rn ZERO_REG) (mk_8 (64 - imms))
      write_x rd (add_or_64 low high) ZERO_REG
    else
      assert_illegal_opcode (imms.toNat < 32)
      let low := add_shr_32 (← read_w rm ZERO_REG) (mk_8 imms)
      let high := add_shl_32 (← read_w rn ZERO_REG) (mk_8 (32 - imms))
      write_w rd (add_or_32 low high) ZERO_REG

/-- One rung of a ladder: the bits of `c` go up by `n` and those of `c'` go down. -/
def exchange_64 (c c' : BitVec 64) (n : BitVec 8) (x : BitVec 64) : BitVec 64 :=
  add_or_64 (add_shl_64 (add_and_64 x (mk_64 c)) (mk_8 n))
    (add_shr_64 (add_and_64 x (mk_64 c')) (mk_8 n))

def exchange_32 (c c' : BitVec 32) (n : BitVec 8) (x : BitVec 64) : BitVec 64 :=
  add_or_32 (add_shl_32 (add_and_32 x (mk_32 c)) (mk_8 n))
    (add_shr_32 (add_and_32 x (mk_32 c')) (mk_8 n))

/-- The constants of `dis_rbit_64`. -/
def rbit_64_c (i : Nat) : BitVec 64 :=
  [0x5555555555555555#64, 0x3333333333333333#64, 0x0F0F0F0F0F0F0F0F#64, 0x00FF00FF00FF00FF#64,
    0x0000FFFF0000FFFF#64, 0x00000000FFFFFFFF#64].getD i 0

/-- The constants of `dis_rbit_32`. -/
def rbit_32_c (i : Nat) : BitVec 32 :=
  [0x55555555#32, 0x33333333#32, 0x0F0F0F0F#32, 0x00FF00FF#32, 0x0000FFFF#32].getD i 0

def dis_rbit_64 : Run arm64_registers Unit := do
  let rd := insn.extractLsb' 0 5
  let rn := insn.extractLsb' 5 5
  let x ← read_x rn ZERO_REG
  let x := (List.range 6).foldl
    (fun x i => exchange_64 (rbit_64_c i) (~~~ rbit_64_c i) (BitVec.ofNat 8 (1 <<< i)) x) x
  write_x rd x ZERO_REG

def dis_rbit_32 : Run arm64_registers Unit := do
  let rd := insn.extractLsb' 0 5
  let rn := insn.extractLsb' 5 5
  let w ← read_w rn ZERO_REG
  let w := (List.range 5).foldl
    (fun w i => exchange_32 (rbit_32_c i) (~~~ rbit_32_c i) (BitVec.ofNat 8 (1 <<< i)) w) w
  write_w rd w ZERO_REG

def dis_rbit : Run arm64_registers Unit :=
  if insn.getLsbD 31 then dis_rbit_64 insn else dis_rbit_32 insn

def dis_rev16 : Run arm64_registers Unit := do
  let is_64 := insn.getLsbD 31
  let rd := insn.extractLsb' 0 5
  let rn := insn.extractLsb' 5 5
  if is_64 then
    let rn_reg ← read_x rn ZERO_REG
    write_x rd (exchange_64 0x00ff00ff00ff00ff#64 0xff00ff00ff00ff00#64 8 rn_reg) ZERO_REG
  else
    let rn_reg ← read_w rn ZERO_REG
    write_w rd (exchange_32 0x00ff00ff#32 0xff00ff00#32 8 rn_reg) ZERO_REG

def dis_rev32 : Run arm64_registers Unit := do
  let rd := insn.extractLsb' 0 5
  let rn := insn.extractLsb' 5 5
  let rn_reg ← read_x rn ZERO_REG
  let phase1 := exchange_64 0x0000ffff0000ffff#64 0xffff0000ffff0000#64 16 rn_reg
  let res := exchange_64 0x00ff00ff00ff00ff#64 0xff00ff00ff00ff00#64 8 phase1
  write_x rd res ZERO_REG

def dis_rev : Run arm64_registers Unit := do
  let is_64 := insn.getLsbD 31
  let rn := insn.extractLsb' 5 5
  let rd := insn.extractLsb' 0 5
  if is_64 then
    let rn_reg ← read_x rn ZERO_REG
    let phase1 := exchange_64 0x00000000ffffffff#64 0xffffffff00000000#64 32 rn_reg
    let phase2 := exchange_64 0x0000ffff0000ffff#64 0xffff0000ffff0000#64 16 phase1
    let res := exchange_64 0x00ff00ff00ff00ff#64 0xff00ff00ff00ff00#64 8 phase2
    write_x rd res ZERO_REG
  else
    let rn_reg ← read_w rn ZERO_REG
    let phase1 := exchange_32 0x0000ffff#32 0xffff0000#32 16 rn_reg
    let res := exchange_32 0x00ff00ff#32 0xff00ff00#32 8 phase1
    write_w rd res ZERO_REG

end translations

/-! ## The architecture -/

/-- The low bits of two concatenated registers that are shifted right. -/
def extracted (insn : BitVec 32) (n m : BitVec 64) : BitVec 64 :=
  let lsb := (insn.extractLsb' 10 6).toNat
  if insn.getLsbD 31 then ((n ++ m : BitVec 128) >>> lsb).setWidth 64
  else (((n.setWidth 32 ++ m.setWidth 32 : BitVec 64) >>> lsb).setWidth 32).setWidth 64

/-- The position that bit `i` of a register with its bits reversed comes from. -/
def bit_reversed (width i : Nat) : Nat := width - 1 - i

/-- The position that bit `i` comes from when the bytes of each group of `n` are reversed. -/
def bytes_reversed (n i : Nat) : Nat :=
  i / (8 * n) * (8 * n) + (n - 1 - i / 8 % n) * 8 + i % 8

/-- The instruction leaves `value` of its operands in the destination, and nothing else has
    changed. -/
def Leaves (p : Run arm64_registers Unit) (insn : BitVec 32)
    (value : arm64_registers → BitVec 64) (e : host_env) (s : machine arm64_registers) : Prop :=
  p e s = .done () { s with
    context := s.context.set_x (insn.extractLsb' 0 5) ZERO_REG (value s.context) }

/-- The instruction permutes the bits of its operand; what is above a 32-bit result is zero. -/
def Permutes (p : Run arm64_registers Unit) (insn : BitVec 32) (width : Nat)
    (source : Nat → Nat) : Prop :=
  ∃ permuted : BitVec 64 → BitVec 64,
    (∀ x i, (permuted x).getLsbD i = (decide (i < width) && x.getLsbD (source i))) ∧
    ∀ e s, Leaves p insn (fun c => permuted (c.x (insn.extractLsb' 5 5) ZERO_REG)) e s

/-! ## Ladders -/

open Swaps

theorem exchange_64_eq {c c' : BitVec 64} {n : BitVec 8} (hc : c' = ~~~ c) (hn : n.toNat < 64)
    (x : BitVec 64) : exchange_64 c c' n x = exchange c n.toNat x := by
  simp only [exchange_64, and_64, or_64, shl_64, shr_64, toNat_mk_8, mk_64, Nat.mod_eq_of_lt hn, hc,
    exchange]

theorem exchange_32_eq {c c' : BitVec 32} {n : BitVec 8} (hc : c' = ~~~ c) (hn : n.toNat < 64)
    (x : BitVec 32) :
    exchange_32 c c' n (x.setWidth 64) = (exchange c n.toNat x).setWidth 64 := by
  simp only [exchange_32, mk_32, and_32, shl_32, shr_32, or_32, toNat_mk_8, Nat.mod_eq_of_lt hn, hc,
    exchange]

theorem even_rbit_64_c : ∀ j < 6, EvenGroups (rbit_64_c j) j := by
  decide +kernel

theorem even_rbit_32_c : ∀ j < 5, EvenGroups (rbit_32_c j) j := by
  decide +kernel

/-- The rungs of the given numbers, on a 64-bit register. -/
def ladder_64 (js : List Nat) (x : BitVec 64) : BitVec 64 :=
  js.foldl (fun x j => exchange (rbit_64_c j) (2 ^ j) x) x

/-- The rungs of the given numbers, on the low half of a register. -/
def ladder_32 (js : List Nat) (x : BitVec 64) : BitVec 64 :=
  (js.foldl (fun x j => exchange (rbit_32_c j) (2 ^ j) x) (x.setWidth 32)).setWidth 64

theorem getLsbD_ladder_64 {js : List Nat} {source : Nat → Nat} (hjs : ∀ j ∈ js, j < 6)
    (hsource : ∀ i < 64, js.foldr partner i = source i) (x : BitVec 64) (i : Nat) :
    (ladder_64 js x).getLsbD i = (decide (i < 64) && x.getLsbD (source i)) := by
  by_cases hi : i < 64
  · rw [ladder_64, getLsbD_ladder _ _ _ (fun j hj => even_rbit_64_c j (hjs j hj)) hi, hsource i hi]
    simp [hi]
  · rw [BitVec.getLsbD_of_ge _ _ (by omega)]
    simp [hi]

theorem getLsbD_ladder_32 {js : List Nat} {source : Nat → Nat} (hjs : ∀ j ∈ js, j < 5)
    (hsource : ∀ i < 32, js.foldr partner i = source i ∧ source i < 32) (x : BitVec 64) (i : Nat) :
    (ladder_32 js x).getLsbD i = (decide (i < 32) && x.getLsbD (source i)) := by
  rw [ladder_32, BitVec.getLsbD_setWidth]
  by_cases hi : i < 32
  · obtain ⟨heq, hlt⟩ := hsource i hi
    rw [getLsbD_ladder _ _ _ (fun j hj => even_rbit_32_c j (hjs j hj)) hi, heq,
      BitVec.getLsbD_setWidth]
    simp [hi, hlt, show i < 64 by omega]
  · rw [BitVec.getLsbD_of_ge _ _ (by omega)]
    simp [hi]

/-! ## The reversals -/

theorem rbit_64_ladder (x : BitVec 64) :
    (List.range 6).foldl
      (fun x i => exchange_64 (rbit_64_c i) (~~~ rbit_64_c i) (BitVec.ofNat 8 (1 <<< i)) x) x
      = ladder_64 [0, 1, 2, 3, 4, 5] x := by
  simp only [show List.range 6 = [0, 1, 2, 3, 4, 5] from rfl, List.foldl_cons, List.foldl_nil,
    ladder_64]
  repeat rw [exchange_64_eq rfl (by decide)]
  rfl

theorem rbit_32_ladder (x : BitVec 32) :
    (List.range 5).foldl
      (fun x i => exchange_32 (rbit_32_c i) (~~~ rbit_32_c i) (BitVec.ofNat 8 (1 <<< i)) x)
      (x.setWidth 64) = ladder_32 [0, 1, 2, 3, 4] (x.setWidth 64) := by
  simp only [show List.range 5 = [0, 1, 2, 3, 4] from rfl, List.foldl_cons, List.foldl_nil,
    ladder_32]
  repeat rw [exchange_32_eq rfl (by decide)]
  rw [BitVec.setWidth_setWidth_of_le _ (by decide), BitVec.setWidth_eq]
  rfl

/-- A 64-bit instruction that reads one register. -/
theorem leaves_64 (insn : BitVec 32) (f : BitVec 64 → BitVec 64) (e : host_env)
    (s : machine arm64_registers) :
    Leaves (do write_x (insn.extractLsb' 0 5) (f (← read_x (insn.extractLsb' 5 5) ZERO_REG)) ZERO_REG)
      insn (fun c => f (c.x (insn.extractLsb' 5 5) ZERO_REG)) e s := rfl

/-- A 32-bit instruction that reads one register, and a ladder. -/
theorem leaves_32 (insn : BitVec 32) {js : List Nat} {f : BitVec 64 → BitVec 64}
    (hf : ∀ x : BitVec 32, f (x.setWidth 64) = ladder_32 js (x.setWidth 64))
    (e : host_env) (s : machine arm64_registers) :
    Leaves (do write_w (insn.extractLsb' 0 5) (f (← read_w (insn.extractLsb' 5 5) ZERO_REG)) ZERO_REG)
      insn (fun c => ladder_32 js (c.x (insn.extractLsb' 5 5) ZERO_REG)) e s := by
  unfold Leaves
  simp only [run_bind, read_w, run_read, write_w, write_x, run_write, hf, from_32U, ladder_32]
  simp

theorem dis_rbit_permutes (insn : BitVec 32) :
    Permutes (dis_rbit insn) insn (register_width insn) (bit_reversed (register_width insn)) := by
  unfold dis_rbit register_width
  cases insn.getLsbD 31
  · refine ⟨ladder_32 [0, 1, 2, 3, 4], getLsbD_ladder_32 (by decide) (by decide +kernel), ?_⟩
    exact leaves_32 insn rbit_32_ladder
  · refine ⟨ladder_64 [0, 1, 2, 3, 4, 5], getLsbD_ladder_64 (by decide) (by decide +kernel), ?_⟩
    intro e s
    have h := leaves_64 insn (ladder_64 [0, 1, 2, 3, 4, 5]) e s
    simp only [← rbit_64_ladder] at h ⊢
    exact h

theorem dis_rev16_permutes (insn : BitVec 32) :
    Permutes (dis_rev16 insn) insn (register_width insn) (bytes_reversed 2) := by
  unfold dis_rev16 register_width
  cases insn.getLsbD 31
  · refine ⟨ladder_32 [3], getLsbD_ladder_32 (by decide) (by decide +kernel), ?_⟩
    apply leaves_32 insn
    intro x
    rw [exchange_32_eq (by decide) (by decide), ladder_32]
    simp
    rfl
  · refine ⟨ladder_64 [3], getLsbD_ladder_64 (by decide) (by decide +kernel), ?_⟩
    exact leaves_64 insn (ladder_64 [3])

/-- The 32-bit form does not exist: bit 31 is not looked at. -/
theorem dis_rev32_permutes (insn : BitVec 32) :
    Permutes (dis_rev32 insn) insn 64 (bytes_reversed 4) := by
  refine ⟨ladder_64 [4, 3], getLsbD_ladder_64 (by decide) (by decide +kernel), ?_⟩
  exact leaves_64 insn (ladder_64 [4, 3])

theorem dis_rev_permutes (insn : BitVec 32) :
    Permutes (dis_rev insn) insn (register_width insn) (bytes_reversed (register_width insn / 8)) := by
  unfold dis_rev register_width
  cases insn.getLsbD 31
  · refine ⟨ladder_32 [4, 3], getLsbD_ladder_32 (by decide) (by decide +kernel), ?_⟩
    apply leaves_32 insn
    intro x
    rw [exchange_32_eq (by decide) (by decide), exchange_32_eq (by decide) (by decide), ladder_32]
    simp
    rfl
  · refine ⟨ladder_64 [5, 4, 3], getLsbD_ladder_64 (by decide) (by decide +kernel), ?_⟩
    exact leaves_64 insn (ladder_64 [5, 4, 3])

/-! ## Extraction -/

section extraction

variable {w : Nat} (n m : BitVec w) {lsb : Nat}

/-- Bits of the two registers. -/
theorem getLsbD_extract {i : Nat} (hi : i < w) :
    (((n ++ m) >>> lsb).setWidth w).getLsbD i
      = if lsb + i < w then m.getLsbD (lsb + i) else n.getLsbD (lsb + i - w) := by
  rw [BitVec.getLsbD_setWidth, BitVec.getLsbD_ushiftRight, BitVec.getLsbD_append]
  by_cases h : lsb + i < w <;> simp [h, hi]

/-- The two shifts. -/
theorem extract_shifts (hlsb : lsb < w) :
    m >>> lsb ||| n <<< (w - lsb) = ((n ++ m) >>> lsb).setWidth w := by
  apply BitVec.eq_of_getLsbD_eq
  intro i hi
  rw [getLsbD_extract n m hi, BitVec.getLsbD_or, BitVec.getLsbD_ushiftRight,
    BitVec.getLsbD_shiftLeft]
  by_cases h : lsb + i < w
  · have hlt : i < w - lsb := by omega
    simp [h, hlt]
  · have hlt : ¬ i < w - lsb := by omega
    have hidx : i - (w - lsb) = lsb + i - w := by omega
    rw [BitVec.getLsbD_of_ge m _ (by omega)]
    simp [h, hi, hlt, hidx]

/-- The rotation of one register. -/
theorem extract_rotate (hlsb : lsb < w) : m.rotateRight lsb = ((m ++ m) >>> lsb).setWidth w := by
  apply BitVec.eq_of_getLsbD_eq
  intro i hi
  rw [getLsbD_extract m m hi, BitVec.getLsbD_rotateRight, Nat.mod_eq_of_lt hlsb]
  by_cases h : lsb + i < w
  · have hlt : i < w - lsb := by omega
    simp [h, hlt]
  · have hlt : ¬ i < w - lsb := by omega
    have hidx : i - (w - lsb) = lsb + i - w := by omega
    simp [h, hi, hlt, hidx]

end extraction

section values

variable (n m : BitVec 64) (imms : BitVec 8)

theorem ror_value_64 (h : imms.toNat < 64) :
    mk_ror_imm_64 m imms = ((m ++ m) >>> imms.toNat).setWidth 64 := by
  rw [mk_ror_imm_64, ror_64, toNat_mk_8, Nat.mod_eq_of_lt h, extract_rotate m h]

theorem ror_value_32 (h : imms.toNat < 32) :
    mk_ror_imm_32 ((m.setWidth 32).setWidth 64) imms =
      (((m.setWidth 32 ++ m.setWidth 32) >>> imms.toNat).setWidth 32).setWidth 64 := by
  rw [mk_ror_imm_32, ror_32, toNat_mk_8, Nat.mod_eq_of_lt h, extract_rotate _ h]

/-- The shift by 64 - 0 is one by 0. -/
theorem shifts_value_64 (h : imms.toNat < 64) :
    add_or_64 (add_shr_64 m (mk_8 imms)) (add_shl_64 n (mk_8 (64 - imms))) =
      if imms.toNat = 0 then m ||| n else ((n ++ m) >>> imms.toNat).setWidth 64 := by
  have hleft : (64 - imms).toNat = 64 - imms.toNat := by
    rw [BitVec.toNat_sub]
    change (2 ^ 8 - imms.toNat + 64) % 2 ^ 8 = _
    omega
  rw [or_64, shr_64, shl_64, toNat_mk_8, toNat_mk_8, hleft, Nat.mod_eq_of_lt h]
  by_cases h0 : imms.toNat = 0
  · simp [h0]
  · rw [if_neg h0, Nat.mod_eq_of_lt (by omega), extract_shifts n m h]

/-- A shift by 32 is done on the whole register, and nothing of it is left in the low half. -/
theorem shifts_value_32 (h : imms.toNat < 32) :
    add_or_32 (add_shr_32 ((m.setWidth 32).setWidth 64) (mk_8 imms))
        (add_shl_32 ((n.setWidth 32).setWidth 64) (mk_8 (32 - imms))) =
      (((n.setWidth 32 ++ m.setWidth 32) >>> imms.toNat).setWidth 32).setWidth 64 := by
  have hleft : (32 - imms).toNat = 32 - imms.toNat := by
    rw [BitVec.toNat_sub]
    change (2 ^ 8 - imms.toNat + 32) % 2 ^ 8 = _
    omega
  rw [shr_32, shl_32, or_32, toNat_mk_8, toNat_mk_8, hleft, Nat.mod_eq_of_lt (by omega),
    Nat.mod_eq_of_lt (by omega), extract_shifts _ _ h]

end values

/-- What the encoding admits: the lsb of a 32-bit operation is below 32. -/
def ExtrEncoding (insn : BitVec 32) : Prop :=
  insn.getLsbD 31 = false → (insn.extractLsb' 10 6).toNat < 32

/-- The encodings whose left shift is by 64. -/
def ShiftsBy64 (insn : BitVec 32) : Prop :=
  insn.getLsbD 31 = true ∧ insn.extractLsb' 5 5 ≠ insn.extractLsb' 16 5 ∧ insn.extractLsb' 10 6 = 0

instance (insn : BitVec 32) : Decidable (ExtrEncoding insn) :=
  inferInstanceAs (Decidable (_ → _))

instance (insn : BitVec 32) : Decidable (ShiftsBy64 insn) :=
  inferInstanceAs (Decidable (_ ∧ _ ∧ _))

/-- The value that EXTR leaves. -/
theorem dis_extr_leaves (insn : BitVec 32) (h : ExtrEncoding insn) (e : host_env)
    (s : machine arm64_registers) :
    Leaves (dis_extr insn) insn (fun c =>
      let n := c.x (insn.extractLsb' 5 5) ZERO_REG
      let m := c.x (insn.extractLsb' 16 5) ZERO_REG
      if ShiftsBy64 insn then m ||| n else extracted insn n m) e s := by
  have himms : ((insn.extractLsb' 10 6).setWidth 8).toNat = (insn.extractLsb' 10 6).toNat := by
    rw [BitVec.toNat_setWidth]
    omega
  have hlt := (insn.extractLsb' 10 6).isLt
  have hextend : ∀ y : BitVec 32, ((y.setWidth 64).setWidth 32).setWidth 64 = y.setWidth 64 := by
    intro y
    simp
  unfold Leaves dis_extr
  by_cases hreg : insn.extractLsb' 5 5 = insn.extractLsb' 16 5
  · cases hsf : insn.getLsbD 31
    · have h32 := h hsf
      simp only [hreg, if_true, Bool.false_eq_true, if_false, run_bind, read_w, run_read,
        write_w, write_x, run_write, from_32U]
      rw [ror_value_32 _ _ (by omega), himms, hextend, if_neg fun h64 => h64.2.1 hreg,
        extracted, if_neg (Bool.eq_false_iff.mp hsf)]
    · dsimp only
      rw [if_neg fun h64 : ShiftsBy64 insn => h64.2.1 hreg, hreg, if_pos rfl, if_pos rfl,
        extracted, if_pos hsf]
      simp only [run_bind, read_x, run_read, write_x, run_write]
      rw [ror_value_64 _ _ (by omega), himms]
  · cases hsf : insn.getLsbD 31
    · have h32 := h hsf
      simp only [hreg, if_true, Bool.false_eq_true, if_false, run_bind, read_w, run_read,
        write_w, write_x, run_write, from_32U, assert_illegal_opcode, himms, h32]
      rw [shifts_value_32 _ _ _ (by omega), himms, hextend, if_neg fun h64 => Bool.eq_false_iff.mp hsf h64.1,
        extracted, if_neg (Bool.eq_false_iff.mp hsf)]
    · have hzero : ShiftsBy64 insn ↔ (insn.extractLsb' 10 6).toNat = 0 := by
        unfold ShiftsBy64
        rw [← BitVec.toNat_inj]
        simp [hsf, hreg]
      dsimp only
      rw [if_neg hreg, if_pos rfl, extracted, if_pos hsf]
      simp only [run_bind, read_x, run_read, write_x, run_write]
      rw [shifts_value_64 _ _ _ (by omega), himms]
      simp only [hzero]

/-- When the registers or-ed are what the architecture extracts. -/
theorem or_eq_extracted {insn : BitVec 32} (h : ShiftsBy64 insn) (n m : BitVec 64) :
    m ||| n = extracted insn n m ↔ m ||| n = m := by
  have hm : extracted insn n m = m := by
    obtain ⟨hsf, -, hlsb⟩ := h
    unfold extracted
    rw [hsf, hlsb]
    apply BitVec.eq_of_getLsbD_eq
    intro i hi
    rw [if_pos rfl, getLsbD_extract n m hi, if_pos (by simpa using hi)]
    simp
  rw [hm]

/-- A write of another value is seen, except in the zero register. -/
theorem set_x_inj {c : arm64_registers} {index : BitVec 5} {v v' : BitVec 64} :
    c.set_x index ZERO_REG v = c.set_x index ZERO_REG v' ↔ index = 31 ∨ v = v' := by
  unfold arm64_registers.set_x ZERO_REG
  by_cases h : index = 31
  · simp [h]
  · constructor
    · intro heq
      right
      rw [if_neg fun h' => h h'.1, if_neg fun h' => h h'.1] at heq
      have hr := congrFun (congrArg arm64_registers.r heq) index
      simpa using hr
    · rintro (h' | rfl)
      · exact absurd h' h
      · rfl

/-- An instruction leaves one value. -/
theorem Leaves.iff {p : Run arm64_registers Unit} {insn : BitVec 32}
    {f g : arm64_registers → BitVec 64} {e : host_env} {s : machine arm64_registers}
    (h : Leaves p insn f e s) :
    Leaves p insn g e s ↔ insn.extractLsb' 0 5 = 31 ∨ f s.context = g s.context := by
  unfold Leaves at h ⊢
  rw [h]
  simp only [outcome.done.injEq, machine.mk.injEq, true_and, and_true, set_x_inj]

/-- EXTR leaves what the architecture says exactly when it does not shift a register by 64 that
    brings other bits to a destination; the reversals always do. -/
theorem extract_and_reverse (insn : BitVec 32) :
    (ExtrEncoding insn → ∀ e s,
      (Leaves (dis_extr insn) insn (fun c => extracted insn (c.x (insn.extractLsb' 5 5) ZERO_REG)
          (c.x (insn.extractLsb' 16 5) ZERO_REG)) e s ↔
        (ShiftsBy64 insn → insn.extractLsb' 0 5 = 31 ∨
          s.context.x (insn.extractLsb' 16 5) ZERO_REG ||| s.context.x (insn.extractLsb' 5 5) ZERO_REG
            = s.context.x (insn.extractLsb' 16 5) ZERO_REG))) ∧
    Permutes (dis_rbit insn) insn (register_width insn) (bit_reversed (register_width insn)) ∧
    Permutes (dis_rev insn) insn (register_width insn) (bytes_reversed (register_width insn / 8)) ∧
    Permutes (dis_rev16 insn) insn (register_width insn) (bytes_reversed 2) ∧
    Permutes (dis_rev32 insn) insn 64 (bytes_reversed 4) := by
  constructor
  · intro h e s
    rw [(dis_extr_leaves insn h e s).iff]
    by_cases h64 : ShiftsBy64 insn
    · rw [if_pos h64, or_eq_extracted h64]
      simp [h64]
    · simp [h64]
  · exact ⟨dis_rbit_permutes insn, dis_rev_permutes insn, dis_rev16_permutes insn,
      dis_rev32_permutes insn⟩

/-- ROR x0, x1, #0, which is EXTR x0, x1, x1, #0. -/
theorem extract_and_reverse_ror : ExtrEncoding 0x93c10020#32 ∧
    Leaves (dis_extr 0x93c10020#32) 0x93c10020#32
      (fun c => extracted 0x93c10020#32 (c.x 1 ZERO_REG) (c.x 1 ZERO_REG))
      ⟨fun _ _ => true, fun _ _ => 0⟩ ⟨⟨fun _ => 1, fun _ => ⟨0, 0⟩⟩, fun _ => 0⟩ :=
  have h : ExtrEncoding 0x93c10020#32 := by decide
  ⟨h, ((extract_and_reverse 0x93c10020#32).1 h _ _).mpr (by decide)⟩

/-- EXTR x0, x1, x2, #0 with 1 in x1 and 0 in x2 leaves 1. -/
theorem extract_by_zero : ExtrEncoding 0x93c20020#32 ∧
    ¬ Leaves (dis_extr 0x93c20020#32) 0x93c20020#32
      (fun c => extracted 0x93c20020#32 (c.x 1 ZERO_REG) (c.x 2 ZERO_REG))
      ⟨fun _ _ => true, fun _ _ => 0⟩
      ⟨⟨fun i => if i = 1 then 1 else 0, fun _ => ⟨0, 0⟩⟩, fun _ => 0⟩ := by
  have hadmitted : ExtrEncoding 0x93c20020#32 := by decide
  refine ⟨hadmitted, ?_⟩
  rw [(dis_extr_leaves 0x93c20020#32 hadmitted _ _).iff]
  decide

end Umeq.Arm64
