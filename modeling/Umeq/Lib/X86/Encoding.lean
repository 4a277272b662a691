import Umeq.Lib.Bytes
import Umeq.Lib.Width

/-! # Encoding of x86-64 instructions

    The instructions that a simple code generator needs and their bytes. `encode`
    and `decode` are inverse to each other, so code can be written as a list of
    instructions and run from its bytes.
-/

namespace X86

open Bytes Words

abbrev Reg := Fin 16

def rax : Reg := 0
def rcx : Reg := 1
def rdx : Reg := 2
def rsi : Reg := 6
def rdi : Reg := 7

inductive alu where
  | add | or | and | sub | xor
  deriving DecidableEq, Repr

inductive shift where
  | ror | shl | shr | sar
  deriving DecidableEq, Repr

inductive asm where
  | mov_imm (dst : Reg) (imm : BitVec 64)
  | xor32 (dst src : Reg)
  | mov (dst src : Reg)
  | load (w : width) (dst base : Reg) (disp : BitVec 32)
  | store (w : width) (src base : Reg) (disp : BitVec 32)
  | alu (op : alu) (dst src : Reg)
  | cmp (a b : Reg)
  | cmp_imm (a : Reg) (imm : BitVec 32)
  | shift_cl (w : width) (op : shift) (dst : Reg)
  | shift_imm (op : shift) (dst : Reg) (imm : BitVec 8)
  | cmovnz (dst src : Reg)
  | jcc (nz : Bool) (rel : BitVec 8)
  | lea_rip (dst : Reg) (disp : BitVec 32)
  | ret
  | push (r : Reg)
  | pop (r : Reg)
  | call (r : Reg)
  | jmp (r : Reg)
  | nop
  deriving DecidableEq, Repr

/-! ## Bytes of an instruction -/

/-- The prefix with the operand size and the high bits of the registers. -/
def rex (w : Bool) (r b : Nat) : UInt8 :=
  UInt8.ofNat (0x40 + (if w then 8 else 0) + 4 * (r / 8) + b / 8)

def modrm (mod reg rm : Nat) : UInt8 := UInt8.ofNat (64 * mod + 8 * (reg % 8) + rm % 8)

def alu.opcode : alu → UInt8
  | .add => 0x01
  | .or => 0x09
  | .and => 0x21
  | .sub => 0x29
  | .xor => 0x31

def shift.subcode : shift → Nat
  | .ror => 1
  | .shl => 4
  | .shr => 5
  | .sar => 7

/-- Base and 32-bit displacement; `rsp` and a base from `r8` on go through a SIB
    byte. -/
def address (reg base : Reg) (disp : BitVec 32) : List UInt8 :=
  (if base.val < 8 ∧ base ≠ 4 then [modrm 2 reg base] else [modrm 2 reg 4, modrm 0 4 base]) ++
    le 4 disp.toNat

/-- The prefixes of an instruction of some width. -/
def prefixes (w : width) (r b : Nat) : List UInt8 :=
  (if w = .w16 then [0x66] else []) ++ [rex (w = .w64) r b]

def encode : asm → List UInt8
  | .mov_imm dst imm => [rex true 0 dst, UInt8.ofNat (0xb8 + dst % 8)] ++ le 8 imm.toNat
  | .xor32 dst src => [rex false src dst, 0x31, modrm 3 src dst]
  | .mov dst src => [rex true dst src, 0x8b, modrm 3 dst src]
  | .load w dst base disp =>
    prefixes w dst base ++ [if w = .w8 then 0x8a else 0x8b] ++ address dst base disp
  | .store w src base disp =>
    prefixes w src base ++ [if w = .w8 then 0x88 else 0x89] ++ address src base disp
  | .alu op dst src => [rex true src dst, op.opcode, modrm 3 src dst]
  | .cmp a b => [rex true a b, 0x3b, modrm 3 a b]
  | .cmp_imm a imm => [rex true 0 a, 0x81, modrm 3 7 a] ++ le 4 imm.toNat
  | .shift_cl w op dst =>
    prefixes w 0 dst ++ [if w = .w8 then 0xd2 else 0xd3, modrm 3 op.subcode dst]
  | .shift_imm op dst imm =>
    [rex true 0 dst, 0xc1, modrm 3 op.subcode dst, UInt8.ofNat imm.toNat]
  | .cmovnz dst src => [rex true dst src, 0x0f, 0x45, modrm 3 dst src]
  | .jcc nz rel => [if nz then 0x75 else 0x74, UInt8.ofNat rel.toNat]
  | .lea_rip dst disp => [rex true dst 0, 0x8d, modrm 0 dst 5] ++ le 4 disp.toNat
  | .ret => [0xc3]
  | .push r => [rex true 0 r, UInt8.ofNat (0x50 + r % 8)]
  | .pop r => [rex true 0 r, UInt8.ofNat (0x58 + r % 8)]
  | .call r => [rex true 0 r, 0xff, modrm 3 2 r]
  | .jmp r => (if r.val < 8 then [] else [rex false 0 r]) ++ [0xff, modrm 3 4 r]
  | .nop => [0x90]

/-! ## Reading an instruction -/

def alu.decode : Nat → Option alu
  | 0x01 => some .add
  | 0x09 => some .or
  | 0x21 => some .and
  | 0x29 => some .sub
  | 0x31 => some .xor
  | _ => none

def shift.decode : Nat → Option shift
  | 1 => some .ror
  | 4 => some .shl
  | 5 => some .shr
  | 7 => some .sar
  | _ => none

/-- The fields of the prefix; without one they are all clear. -/
structure rex_fields where
  w : Bool
  r : Bool
  b : Bool
  deriving DecidableEq

def rex_fields.of (byte : Nat) : rex_fields := ⟨byte / 8 % 2 = 1, byte / 4 % 2 = 1, byte % 2 = 1⟩

/-- A register from its three bits and the one of the prefix. -/
def reg (high : Bool) (bits : Nat) : Reg := Fin.ofNat 16 ((if high then 8 else 0) + bits % 8)

/-- A number of `n` bytes, and what follows it. -/
def take_le (n : Nat) (bs : List UInt8) : Option (Nat × List UInt8) :=
  if n ≤ bs.length then some (ofLE (bs.take n), bs.drop n) else none

/-- The two registers of a byte that names registers. -/
def decode_regs (p : rex_fields) : List UInt8 → Option (Reg × Reg × List UInt8)
  | m :: bs =>
    if m.toNat / 64 = 3 then some (reg p.r (m.toNat / 8), reg p.b m.toNat, bs) else none
  | [] => none

/-- A register and an extension of the opcode. -/
def decode_sub (p : rex_fields) : List UInt8 → Option (Nat × Reg × List UInt8)
  | m :: bs =>
    if m.toNat / 64 = 3 then some (m.toNat / 8 % 8, reg p.b m.toNat, bs) else none
  | [] => none

/-- A register and an address. -/
def decode_address (p : rex_fields) : List UInt8 → Option (Reg × Reg × BitVec 32 × List UInt8)
  | m :: bs => do
    if m.toNat / 64 = 2 then
      let (base, bs) ←
        if m.toNat % 8 = 4 then
          match bs with
          | sib :: bs => if sib.toNat / 8 = 4 then some (reg p.b sib.toNat, bs) else none
          | [] => none
        else some (reg p.b m.toNat, bs)
      let (disp, bs) ← take_le 4 bs
      some (reg p.r (m.toNat / 8), base, BitVec.ofNat 32 disp, bs)
    else none
  | [] => none

/-- The width that the prefixes give. -/
def operand (p66 : Bool) (p : rex_fields) : width :=
  if p.w then .w64 else if p66 then .w16 else .w32

/-- An opcode without a register in it, and what follows. -/
def decode_plain (p66 : Bool) (p : rex_fields) : Nat → List UInt8 → Option (asm × List UInt8)
  | 0x8a, bs => do
    let (r, b, d, bs) ← decode_address p bs
    some (.load .w8 r b d, bs)
  | 0x88, bs => do
    let (r, b, d, bs) ← decode_address p bs
    some (.store .w8 r b d, bs)
  | 0x8b, bs =>
    match decode_regs p bs with
    | some (r, b, bs) => if p.w then some (.mov r b, bs) else none
    | none => do
      let (r, b, d, bs) ← decode_address p bs
      some (.load (operand p66 p) r b d, bs)
  | 0x89, bs => do
    let (r, b, d, bs) ← decode_address p bs
    some (.store (operand p66 p) r b d, bs)
  | 0x3b, bs => do
    let (r, b, bs) ← decode_regs p bs
    if p.w then some (.cmp r b, bs) else none
  | 0x81, bs => do
    let (sub, b, bs) ← decode_sub p bs
    let (imm, bs) ← take_le 4 bs
    if p.w ∧ sub = 7 then some (.cmp_imm b (BitVec.ofNat 32 imm), bs) else none
  | 0xd2, bs => do
    let (sub, b, bs) ← decode_sub p bs
    some (.shift_cl .w8 (← shift.decode sub) b, bs)
  | 0xd3, bs => do
    let (sub, b, bs) ← decode_sub p bs
    some (.shift_cl (operand p66 p) (← shift.decode sub) b, bs)
  | 0xc1, bs => do
    let (sub, b, bs) ← decode_sub p bs
    let (imm, bs) ← take_le 1 bs
    if p.w then some (.shift_imm (← shift.decode sub) b (BitVec.ofNat 8 imm), bs) else none
  | 0x0f, m :: bs => do
    let (r, b, bs) ← decode_regs p bs
    if p.w ∧ m = 0x45 then some (.cmovnz r b, bs) else none
  | 0x74, bs => do
    let (rel, bs) ← take_le 1 bs
    some (.jcc false (BitVec.ofNat 8 rel), bs)
  | 0x75, bs => do
    let (rel, bs) ← take_le 1 bs
    some (.jcc true (BitVec.ofNat 8 rel), bs)
  | 0x8d, m :: bs => do
    let (disp, bs) ← take_le 4 bs
    if p.w ∧ m.toNat / 64 = 0 ∧ m.toNat % 8 = 5 then
      some (.lea_rip (reg p.r (m.toNat / 8)) (BitVec.ofNat 32 disp), bs)
    else none
  | 0xff, bs => do
    let (sub, b, bs) ← decode_sub p bs
    if sub = 2 then some (.call b, bs) else if sub = 4 then some (.jmp b, bs) else none
  | 0xc3, bs => some (.ret, bs)
  | 0x90, bs => if p.b then none else some (.nop, bs)
  | op, bs => do
    let kind ← alu.decode op
    let (r, b, bs) ← decode_regs p bs
    if p.w then some (.alu kind b r, bs)
    else if kind = .xor then some (.xor32 b r, bs) else none

/-- What follows the prefixes. -/
def decode_opcode (p66 : Bool) (p : rex_fields) (op : Nat) (bs : List UInt8) :
    Option (asm × List UInt8) :=
  if op / 8 = 0x50 / 8 then some (.push (reg p.b op), bs)
  else if op / 8 = 0x58 / 8 then some (.pop (reg p.b op), bs)
  else if op / 8 = 0xb8 / 8 then do
    let (imm, bs) ← take_le 8 bs
    if p.w then some (.mov_imm (reg p.b op) (BitVec.ofNat 64 imm), bs) else none
  else decode_plain p66 p op bs

/-- After the size prefix. -/
def decode_rex (p66 : Bool) : List UInt8 → Option (asm × List UInt8)
  | [] => none
  | b :: bs =>
    if b.toNat / 16 = 4 then
      match bs with
      | [] => none
      | op :: bs => decode_opcode p66 (.of b.toNat) op.toNat bs
    else decode_opcode p66 ⟨false, false, false⟩ b.toNat bs

/-- The instruction at the head of some bytes, and what follows it. -/
def decode : List UInt8 → Option (asm × List UInt8)
  | [] => none
  | b :: bs => if b = 0x66 then decode_rex true bs else decode_rex false (b :: bs)

/-! ## Encoding and decoding agree -/

section round_trip

variable {t : List UInt8}

theorem toNat_rex (w : Bool) (r b : Reg) :
    (rex w r b).toNat = 0x40 + (if w then 8 else 0) + 4 * (r / 8) + b / 8 := by
  unfold rex
  rw [UInt8.toNat_ofNat']
  split <;> omega

theorem toNat_modrm {mod : Nat} (hmod : mod < 4) (reg rm : Nat) :
    (modrm mod reg rm).toNat = 64 * mod + 8 * (reg % 8) + rm % 8 := by
  unfold modrm
  rw [UInt8.toNat_ofNat']
  omega

/-- A register is its three bits and the one in the prefix. -/
theorem reg_eq {r : Reg} {bits : Nat} (h : bits % 8 = r % 8) :
    reg (decide (8 ≤ r.val)) bits = r := by
  apply Fin.ext
  simp only [reg, Fin.val_ofNat]
  split_ifs with hr
  · have := of_decide_eq_true hr
    omega
  · have : ¬ 8 ≤ r.val := fun h8 => hr (decide_eq_true h8)
    omega

theorem rex_spec (w : Bool) (r b : Reg) : (rex w r b).toNat / 16 = 4 ∧ rex w r b ≠ 0x66 ∧
    rex_fields.of (rex w r b).toNat = ⟨w, decide (8 ≤ r.val), decide (8 ≤ b.val)⟩ := by
  have hnat := toNat_rex w r b
  refine ⟨?_, ?_, ?_⟩
  · rw [hnat]
    split <;> omega
  · intro h66
    rw [h66] at hnat
    have : (0x66 : UInt8).toNat = 0x66 := rfl
    split at hnat <;> omega
  · simp only [rex_fields.of, hnat, rex_fields.mk.injEq]
    cases w <;> simp <;> omega

theorem modrm_regs_spec (r b : Reg) : (modrm 3 r b).toNat / 64 = 3 ∧
    reg (decide (8 ≤ r.val)) ((modrm 3 r b).toNat / 8) = r ∧
    reg (decide (8 ≤ b.val)) (modrm 3 r b).toNat = b := by
  rw [toNat_modrm (by decide)]
  exact ⟨by omega, reg_eq (by omega), reg_eq (by omega)⟩

theorem modrm_sub_spec {s : Nat} (hs : s < 8) (b : Reg) : (modrm 3 s b).toNat / 64 = 3 ∧
    (modrm 3 s b).toNat / 8 % 8 = s ∧ reg (decide (8 ≤ b.val)) (modrm 3 s b).toNat = b := by
  rw [toNat_modrm (by decide)]
  exact ⟨by omega, by omega, reg_eq (by omega)⟩

theorem modrm_base_spec (r b : Reg) (hb : b.val < 8 ∧ b ≠ 4) : (modrm 2 r b).toNat / 64 = 2 ∧
    (modrm 2 r b).toNat % 8 ≠ 4 ∧ reg (decide (8 ≤ r.val)) ((modrm 2 r b).toNat / 8) = r ∧
    reg (decide (8 ≤ b.val)) (modrm 2 r b).toNat = b := by
  have hb4 : b.val ≠ 4 := fun h => hb.2 (Fin.ext h)
  rw [toNat_modrm (by decide)]
  exact ⟨by omega, by omega, reg_eq (by omega), reg_eq (by omega)⟩

theorem modrm_sib_spec (r b : Reg) : (modrm 2 r 4).toNat / 64 = 2 ∧
    (modrm 2 r 4).toNat % 8 = 4 ∧ reg (decide (8 ≤ r.val)) ((modrm 2 r 4).toNat / 8) = r ∧
    (modrm 0 4 b).toNat / 8 = 4 ∧ reg (decide (8 ≤ b.val)) (modrm 0 4 b).toNat = b := by
  rw [toNat_modrm (by decide), toNat_modrm (by decide)]
  exact ⟨by omega, by omega, reg_eq (by omega), by omega, reg_eq (by omega)⟩

theorem modrm_rip_spec (r : Reg) : (modrm 0 r 5).toNat / 64 = 0 ∧ (modrm 0 r 5).toNat % 8 = 5 ∧
    reg (decide (8 ≤ r.val)) ((modrm 0 r 5).toNat / 8) = r := by
  rw [toNat_modrm (by decide)]
  exact ⟨by omega, by omega, reg_eq (by omega)⟩

theorem decode_rex_cons (w : Bool) (r b : Reg) (op : UInt8) : decode (rex w r b :: op :: t) =
    decode_opcode false ⟨w, decide (8 ≤ r.val), decide (8 ≤ b.val)⟩ op.toNat t := by
  obtain ⟨h4, hne, hof⟩ := rex_spec w r b
  simp only [decode, hne, if_false, decode_rex, h4, hof, if_true]

theorem decode_prefixes (w : width) (r b : Reg) (op : UInt8) :
    decode (prefixes w r b ++ op :: t) = decode_opcode (decide (w = .w16))
      ⟨decide (w = .w64), decide (8 ≤ r.val), decide (8 ≤ b.val)⟩ op.toNat t := by
  obtain ⟨h4, hne, hof⟩ := rex_spec (decide (w = .w64)) r b
  unfold prefixes
  cases w with
  | w16 => simp only [decode, decode_rex, h4, hof, if_true, List.cons_append, List.nil_append,
      decide_true]
  | w8 | w32 | w64 => exact decode_rex_cons _ r b op

/-- Without a register in the middle field. -/
theorem decode_rex_zero (w : Bool) (b : Reg) (op : UInt8) : decode (rex w 0 b :: op :: t) =
    decode_opcode false ⟨w, false, decide (8 ≤ b.val)⟩ op.toNat t := decode_rex_cons w 0 b op

theorem decode_prefixes_zero (w : width) (b : Reg) (op : UInt8) :
    decode (prefixes w 0 b ++ op :: t) = decode_opcode (decide (w = .w16))
      ⟨decide (w = .w64), false, decide (8 ≤ b.val)⟩ op.toNat t := decode_prefixes w 0 b op

theorem take_le_le (n v : Nat) : take_le n (le n v ++ t) = some (v % 256 ^ n, t) := by
  simp [take_le, List.take_left', List.drop_left', ofLE_le]

theorem ofNat_toNat_mod {k n : Nat} (x : BitVec k) (h : 2 ^ k = 256 ^ n) :
    BitVec.ofNat k (x.toNat % 256 ^ n) = x := by
  rw [← h, Nat.mod_eq_of_lt x.isLt, BitVec.ofNat_toNat, BitVec.setWidth_eq]

theorem take_le_byte (x : BitVec 8) (t : List UInt8) :
    take_le 1 (UInt8.ofNat x.toNat :: t) = some (x.toNat, t) := by
  have h := take_le_le (t := t) 1 x.toNat
  rw [Nat.mod_eq_of_lt (by simpa using x.isLt)] at h
  exact h

theorem decode_regs_modrm (w : Bool) (r b : Reg) :
    decode_regs ⟨w, decide (8 ≤ r.val), decide (8 ≤ b.val)⟩ (modrm 3 r b :: t) =
      some (r, b, t) := by
  obtain ⟨h3, hr, hb⟩ := modrm_regs_spec r b
  simp only [decode_regs, h3, if_true, hr, hb]

theorem decode_sub_modrm (w r : Bool) {s : Nat} (hs : s < 8) (b : Reg) :
    decode_sub ⟨w, r, decide (8 ≤ b.val)⟩ (modrm 3 s b :: t) = some (s, b, t) := by
  obtain ⟨h3, hsub, hb⟩ := modrm_sub_spec hs b
  simp only [decode_sub, h3, if_true, hsub, hb]

theorem decode_address_address (w : Bool) (r b : Reg) (disp : BitVec 32) :
    decode_address ⟨w, decide (8 ≤ r.val), decide (8 ≤ b.val)⟩ (address r b disp ++ t) =
      some (r, b, disp, t) := by
  have hdisp := ofNat_toNat_mod (n := 4) disp (by decide)
  unfold address
  split_ifs with hlow
  · obtain ⟨h2, h4, hr, hbase⟩ := modrm_base_spec r b hlow
    simp only [List.cons_append, List.nil_append, decode_address, h2, h4, hr, hbase, if_true,
      if_false, Option.bind_eq_bind, Option.bind_some, take_le_le, hdisp]
  · obtain ⟨h2, h4, hr, h0, hbase⟩ := modrm_sib_spec r b
    simp only [List.cons_append, List.nil_append, decode_address, h2, h4, hr, h0, hbase, if_true,
      Option.bind_eq_bind, Option.bind_some, take_le_le, hdisp]

theorem decode_regs_address (w : Bool) (r b : Reg) (disp : BitVec 32) :
    decode_regs ⟨w, decide (8 ≤ r.val), decide (8 ≤ b.val)⟩ (address r b disp ++ t) = none := by
  unfold address
  split_ifs with hlow
  · obtain ⟨h2, -⟩ := modrm_base_spec r b hlow
    simp [decode_regs, h2]
  · obtain ⟨h2, -⟩ := modrm_sib_spec r b
    simp [decode_regs, h2]

theorem shift_subcode (op : shift) : op.subcode < 8 ∧ shift.decode op.subcode = some op := by
  cases op <;> decide

/-- The opcodes with a register in their low bits. -/
theorem reg_opcode_spec (base : Nat) (hbase : base % 8 = 0 ∧ base < 256) (b : Reg) :
    (UInt8.ofNat (base + b % 8)).toNat / 8 = base / 8 ∧
    reg (decide (8 ≤ b.val)) (UInt8.ofNat (base + b.val % 8)).toNat = b := by
  rw [UInt8.toNat_ofNat']
  exact ⟨by omega, reg_eq (by omega)⟩

/-- The other instructions do not start like these. -/
theorem decode_opcode_plain (p66 : Bool) (p : rex_fields) (op : Nat) (t : List UInt8)
    (h : op / 8 ≠ 10 ∧ op / 8 ≠ 11 ∧ op / 8 ≠ 23) :
    decode_opcode p66 p op t = decode_plain p66 p op t := by
  unfold decode_opcode
  rw [if_neg h.1, if_neg h.2.1, if_neg h.2.2]

/-- What is decoded is what was encoded. -/
theorem decode_encode (i : asm) : decode (encode i ++ t) = some (i, t) := by
  cases i with
  | mov_imm dst imm =>
    obtain ⟨hop, hreg⟩ := reg_opcode_spec 0xb8 (by decide) dst
    rw [encode, List.append_assoc, List.cons_append, List.cons_append, decode_rex_zero]
    unfold decode_opcode
    rw [hop, if_neg (by decide), if_neg (by decide), if_pos rfl, List.nil_append, take_le_le, hreg]
    simp only [Option.bind_eq_bind, Option.bind_some, if_true,
      ofNat_toNat_mod imm (show 2 ^ 64 = 256 ^ 8 by decide)]
  | xor32 dst src =>
    rw [encode, List.cons_append, List.cons_append, decode_rex_cons,
      decode_opcode_plain _ _ _ _ (by decide)]
    simp [decode_plain, alu.decode, decode_regs_modrm]
  | mov dst src =>
    rw [encode, List.cons_append, List.cons_append, decode_rex_cons,
      decode_opcode_plain _ _ _ _ (by decide)]
    simp [decode_plain, decode_regs_modrm]
  | load w dst base disp =>
    have haddr := decode_address_address (t := t) (decide (w = .w64)) dst base disp
    have hnot := decode_regs_address (t := t) (decide (w = .w64)) dst base disp
    rw [encode, List.append_assoc, List.append_assoc, List.singleton_append, decode_prefixes,
      decode_opcode_plain _ _ _ _ (by cases w <;> decide)]
    cases w <;> simp_all [decode_plain, operand]
  | store w src base disp =>
    have haddr := decode_address_address (t := t) (decide (w = .w64)) src base disp
    rw [encode, List.append_assoc, List.append_assoc, List.singleton_append, decode_prefixes,
      decode_opcode_plain _ _ _ _ (by cases w <;> decide)]
    cases w <;> simp_all [decode_plain, operand]
  | alu op dst src =>
    rw [encode, List.cons_append, List.cons_append, decode_rex_cons,
      decode_opcode_plain _ _ _ _ (by cases op <;> decide)]
    cases op <;> simp [decode_plain, alu.decode, alu.opcode, decode_regs_modrm]
  | cmp a b =>
    rw [encode, List.cons_append, List.cons_append, decode_rex_cons,
      decode_opcode_plain _ _ _ _ (by decide)]
    simp [decode_plain, decode_regs_modrm]
  | cmp_imm a imm =>
    rw [encode, List.append_assoc, List.cons_append, List.cons_append, decode_rex_zero,
      decode_opcode_plain _ _ _ _ (by decide)]
    show decode_plain _ _ 0x81 _ = _
    simp only [decode_plain, List.cons_append, List.nil_append, decode_sub_modrm, Nat.reduceLT,
      take_le_le, ofNat_toNat_mod imm (show 2 ^ 32 = 256 ^ 4 by decide), Option.bind_eq_bind,
      Option.bind_some, and_self, if_true]
  | shift_cl w op dst =>
    obtain ⟨hlt, hop⟩ := shift_subcode op
    rw [encode, List.append_assoc, List.cons_append, decode_prefixes_zero,
      decode_opcode_plain _ _ _ _ (by cases w <;> decide)]
    cases w <;> simp [decode_plain, operand, decode_sub_modrm, hlt, hop]
  | shift_imm op dst imm =>
    obtain ⟨hlt, hop⟩ := shift_subcode op
    rw [encode, List.cons_append, List.cons_append, decode_rex_zero,
      decode_opcode_plain _ _ _ _ (by decide)]
    show decode_plain _ _ 0xc1 _ = _
    simp only [decode_plain, List.cons_append, List.nil_append, decode_sub_modrm, hlt, hop,
      take_le_byte, Option.bind_eq_bind, Option.bind_some, if_true, BitVec.ofNat_toNat,
      BitVec.setWidth_eq]
  | cmovnz dst src =>
    rw [encode, List.cons_append, List.cons_append, decode_rex_cons,
      decode_opcode_plain _ _ _ _ (by decide)]
    simp [decode_plain, decode_regs_modrm]
  | jcc nz rel =>
    have hrel := take_le_byte rel t
    cases nz
    · refine Eq.trans (b := (take_le 1 (UInt8.ofNat rel.toNat :: t)).bind fun x =>
        some (.jcc false (BitVec.ofNat 8 x.1), x.2)) rfl ?_
      simp only [hrel, Option.bind_some, BitVec.ofNat_toNat, BitVec.setWidth_eq]
    · refine Eq.trans (b := (take_le 1 (UInt8.ofNat rel.toNat :: t)).bind fun x =>
        some (.jcc true (BitVec.ofNat 8 x.1), x.2)) rfl ?_
      simp only [hrel, Option.bind_some, BitVec.ofNat_toNat, BitVec.setWidth_eq]
  | lea_rip dst disp =>
    obtain ⟨h0, h5, hdst⟩ := modrm_rip_spec dst
    rw [encode, List.append_assoc, List.cons_append, List.cons_append]
    refine (decode_rex_cons true dst 0 0x8d).trans ?_
    rw [decode_opcode_plain _ _ _ _ (by decide)]
    show decode_plain _ _ 0x8d _ = _
    simp only [decode_plain, List.cons_append, List.nil_append, take_le_le, h0, h5, hdst,
      ofNat_toNat_mod disp (show 2 ^ 32 = 256 ^ 4 by decide), Option.bind_eq_bind,
      Option.bind_some, and_self, if_true]
  | ret => rfl
  | push r =>
    obtain ⟨hop, hreg⟩ := reg_opcode_spec 0x50 (by decide) r
    rw [encode, List.cons_append, List.cons_append, decode_rex_zero]
    simp only [decode_opcode, hop, hreg, if_true, List.nil_append]
  | pop r =>
    obtain ⟨hop, hreg⟩ := reg_opcode_spec 0x58 (by decide) r
    rw [encode, List.cons_append, List.cons_append, decode_rex_zero]
    unfold decode_opcode
    rw [hop, if_neg (by decide), if_pos rfl, hreg, List.nil_append]
  | call r =>
    rw [encode, List.cons_append, List.cons_append, decode_rex_zero,
      decode_opcode_plain _ _ _ _ (by decide)]
    simp [decode_plain, decode_sub_modrm]
  | jmp r =>
    rw [encode]
    split_ifs with hlow
    · have hsub := decode_sub_modrm (t := t) (s := 4) false false (by decide) r
      rw [show decide (8 ≤ r.val) = false by simpa using hlow] at hsub
      refine Eq.trans (b := decode_plain false ⟨false, false, false⟩ 0xff (modrm 3 4 r :: t)) rfl ?_
      simp [decode_plain, hsub]
    · rw [List.cons_append, List.nil_append, List.cons_append, List.cons_append, decode_rex_zero,
        decode_opcode_plain _ _ _ _ (by decide)]
      simp [decode_plain, decode_sub_modrm]
  | nop => rfl

end round_trip

end X86
