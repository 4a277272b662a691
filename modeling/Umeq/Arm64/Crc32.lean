import Umeq.Arm64.ZeroRegister
import Umeq.Lib.Crc

/-! # The checksums of `arm64_helpers.c`

    The CRC32 instructions divide the bytes of a register, after those of an accumulator, by one of
    two polynomials. The helper takes eight steps at once from a table of 256 words.

    Register 31 is read and written like the others here; what the instructions should do with it
    is the subject of another module.
-/

namespace Umeq.Arm64

open Crc Polynomial

/-! ## The polynomials and the message -/

/-- The two polynomials, without their upper coefficient. -/
def crc32_poly : BitVec 32 := 0x04C11DB7#32

def crc32c_poly : BitVec 32 := 0x1EDC6F41#32

def crc_poly (insn : BitVec 32) : BitVec 32 := if insn.getLsbD 12 then crc32c_poly else crc32_poly

/-- The bytes of an operand in memory. -/
def data_bytes (len : Nat) (x : BitVec 64) : List (BitVec 8) :=
  (List.range len).map fun i => (x >>> (8 * i)).setWidth 8

/-- The bits of each byte from its lower end. -/
def message_of (bytes : List (BitVec 8)) : List Bool := bytes.flatMap (bits 8)

theorem data_bytes_succ (len : Nat) (x : BitVec 64) :
    data_bytes (len + 1) x = x.setWidth 8 :: data_bytes len (x >>> 8) := by
  unfold data_bytes
  rw [List.range_succ_eq_map, List.map_cons, List.map_map]
  congr 1
  apply List.map_congr_left
  intro i _
  show (x >>> (8 * (i + 1))).setWidth 8 = (x >>> 8 >>> (8 * i)).setWidth 8
  rw [← BitVec.shiftRight_add, Nat.mul_succ, Nat.add_comm]

/-! ## The tables -/

/-- A table has what eight steps make of each byte. -/
def TableOf (poly : BitVec 32) (table : List Nat) : Prop :=
  ∀ i < 256, table.getD i 0 = ((shift_step poly)^[8] (BitVec.ofNat 32 i)).toNat

theorem crc32_table_steps : TableOf crc32_poly.reverse crc32_table := by
  have hreverse : crc32_poly.reverse = 0xEDB88320#32 := by decide +kernel
  rw [hreverse]
  unfold TableOf
  decide +kernel

theorem crc32c_table_steps : TableOf crc32c_poly.reverse crc32c_table := by
  have hreverse : crc32c_poly.reverse = 0x82F63B78#32 := by decide +kernel
  rw [hreverse]
  unfold TableOf
  decide +kernel

/-! ## The helper -/

section bytes

variable {poly : BitVec 32} {table : List Nat}

/-- A byte in a word of another width has the same bits. -/
theorem bits_byte (b : BitVec 8) : bits 8 b = bits 8 (b.setWidth 32) := by
  apply List.map_congr_left
  intro i hi
  have hlt := List.mem_range.mp hi
  rw [BitVec.getLsbD_setWidth, decide_eq_true (by omega), Bool.true_and]

theorem byte_above (b : BitVec 8) : b.setWidth 32 >>> 8 = 0#32 := by
  apply BitVec.eq_of_toNat_eq
  rw [BitVec.toNat_ushiftRight, BitVec.toNat_setWidth, Nat.shiftRight_eq_div_pow]
  have hlt := b.isLt
  show b.toNat % 2 ^ 32 / 2 ^ 8 = 0
  omega

/-- The index into the table. -/
theorem table_index (r : BitVec 32) (buf : BitVec 64) :
    (r.setWidth 64 ^^^ buf) &&& 0xff#64 = (low 8 (r ^^^ (buf.setWidth 8).setWidth 32)).setWidth 64 := by
  have hmask : ∀ i < 64, (0xff#64).getLsbD i = decide (i < 8) := by decide
  apply BitVec.eq_of_getLsbD_eq
  intro i hi
  rw [BitVec.getLsbD_and, hmask i hi, BitVec.getLsbD_xor, BitVec.getLsbD_setWidth,
    BitVec.getLsbD_setWidth, getLsbD_low, BitVec.getLsbD_xor, BitVec.getLsbD_setWidth,
    BitVec.getLsbD_setWidth]
  by_cases h : i < 8
  · simp [h, hi, show i < 32 by omega]
  · simp [h]

/-- One byte: the entry of the table and the upper bytes are what the eight bits make. -/
theorem table_byte (htable : TableOf poly table) (r : BitVec 32) (buf : BitVec 64) :
    BitVec.ofNat 64 (table.getD ((r.setWidth 64 ^^^ buf) &&& 0xff#64).toNat 0) ^^^ (r.setWidth 64 >>> 8) =
      (reflected_serial poly r (bits 8 (buf.setWidth 8))).setWidth 64 := by
  have habove := byte_above (buf.setWidth 8)
  have hlt : (low 8 (r ^^^ (buf.setWidth 8).setWidth 32)).toNat < 256 := by
    unfold low
    rw [BitVec.toNat_setWidth]
    exact lt_of_le_of_lt (Nat.mod_le _ _) (BitVec.isLt _)
  have hindex : (((r.setWidth 64 ^^^ buf) &&& 0xff#64)).toNat =
      (low 8 (r ^^^ (buf.setWidth 8).setWidth 32)).toNat := by
    rw [table_index, BitVec.toNat_setWidth]
    exact Nat.mod_eq_of_lt (by omega)
  have hentry := htable _ hlt
  rw [BitVec.ofNat_toNat, BitVec.setWidth_eq] at hentry
  rw [bits_byte, serial_bits poly 8 r _ habove, table_step, hindex, hentry,
    BitVec.ushiftRight_xor_distrib, habove, BitVec.xor_zero, BitVec.setWidth_xor,
    BitVec.ofNat_toNat]
  rfl

/-- The loop over the bytes. -/
theorem crc32_with_bytes (htable : TableOf poly table) (len : Nat) (r : BitVec 32) (buf : BitVec 64) :
    crc32_with table (r.setWidth 64) buf len =
      (reflected_serial poly r (message_of (data_bytes len buf))).setWidth 64 := by
  induction len generalizing r buf with
  | zero => rfl
  | succ len ih =>
    have hmessage : message_of (data_bytes (len + 1) buf) =
        bits 8 (buf.setWidth 8) ++ message_of (data_bytes len (buf >>> 8)) := by
      rw [data_bytes_succ]
      rfl
    rw [crc32_with, table_byte htable, ih, hmessage]
    unfold reflected_serial
    rw [List.foldl_append]

end bytes

/-! ## The instructions -/

section instructions

variable (c : arm64_target) (insn : BitVec 32)

/-- The mask of a size leaves the bytes of that size. -/
theorem masked_bytes (x : BitVec 64) {sz : Nat} (hsz : sz < 4) :
    data_bytes (1 <<< sz) (x &&& crc32_mask sz) = data_bytes (1 <<< sz) x := by
  have hmask : ∀ sz < 4, ∀ k < 8 * (1 <<< sz), (crc32_mask sz).getLsbD k = true := by decide
  apply List.map_congr_left
  intro i hi
  have hlt := List.mem_range.mp hi
  apply BitVec.eq_of_getLsbD_eq
  intro j hj
  rw [BitVec.getLsbD_setWidth, BitVec.getLsbD_setWidth, BitVec.getLsbD_ushiftRight,
    BitVec.getLsbD_ushiftRight, BitVec.getLsbD_and, hmask sz hsz _ (by omega), Bool.and_true]

/-- The accumulator is a word. -/
theorem acc_word : crc32_acc c insn = ((c.r (crc32_rn insn)).setWidth 32).setWidth 64 := by
  have hmask : ∀ i < 64, (0xffffffff#64).getLsbD i = decide (i < 32) := by decide
  apply BitVec.eq_of_getLsbD_eq
  intro i hi
  unfold crc32_acc
  rw [BitVec.getLsbD_and, hmask i hi, BitVec.getLsbD_setWidth, BitVec.getLsbD_setWidth,
    decide_eq_true hi, Bool.true_and, Bool.and_comm]

/-- The accumulator, turned around. -/
def crc_start : BitVec 32 := ((c.r (crc32_rn insn)).setWidth 32).reverse

/-- The bits of the bytes of the operand. -/
def crc_message : List Bool := message_of (data_bytes (1 <<< crc32_sz insn) (c.r (crc32_rm insn)))

/-- What the bits leave, one at a time. -/
def crc_remainder : BitVec 32 := bit_serial (crc_poly insn) (crc_start c insn) (crc_message c insn)

/-- The helper leaves the remainder, turned around, in the destination and changes nothing else. It
    is the remainder of a division of polynomials. -/
theorem crc32_divides :
    arm64_hlp_dirty_crc32 c insn = { c with
      r := Function.update c.r (crc32_rd insn) ((crc_remainder c insn).reverse.setWidth 64) } ∧
    toPoly (crc_remainder c insn) =
      (toPoly (crc_start c insn) * X ^ (crc_message c insn).length +
        toPolyMessage (crc_message c insn) * X ^ 32) %ₘ divisor (crc_poly insn) := by
  have hsz : crc32_sz insn < 4 := (insn.extractLsb' 10 2).isLt
  refine ⟨?_, serial_remainder (by decide) _ _ _⟩
  unfold arm64_hlp_dirty_crc32 crc_remainder crc_start crc_message crc_poly
  rw [acc_word, crc32_val, serial_reverse, BitVec.reverse_reverse_eq, ← masked_bytes _ hsz]
  dsimp only
  split_ifs
  · rw [crc32c, crc32_with_bytes crc32c_table_steps]
  · rw [crc32, crc32_with_bytes crc32_table_steps]

end instructions

end Umeq.Arm64
