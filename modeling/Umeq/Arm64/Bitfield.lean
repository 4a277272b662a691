import Umeq.Arm64.Registers

/-! # The bitfield moves of `arm64_helpers.c`

    SBFM, BFM and UBFM copy a field of the source to the destination: the bits S to R to
    position 0, or the bits S to 0 to the position that is R below the width. What is not
    in the field is zero, the sign of the field, or what the destination had.

    The helper rotates the source and masks it. It is compiled for an x86_64 host; at the
    corners it shifts a 64-bit word by 64, which the host takes for a shift by 0.
-/

namespace Umeq.Arm64

/-! ## The helper -/

/-- The amount of a shift, of which the host looks at the low six bits. -/
def amount (n : Int) : Nat := (n % 64).toNat

/-- The failed assert of another instruction is `none`. -/
def arm64_hlp_compute_bitfield (insn : BitVec 32) (rn rd : BitVec 64) : Option (BitVec 64) :=
  let is64 := insn.getLsbD 31
  let reg_size : Int := if is64 then 64 else 32
  let reg_mask : BitVec 64 := if is64 then BitVec.allOnes 64 else 0xffffffff#64
  let R : Int := (insn.extractLsb' 16 6).toNat
  let S : Int := (insn.extractLsb' 10 6).toNat
  let diff := S - R
  let (mask, diff) : BitVec 64 × Int :=
    if 0 ≤ diff then
      (if diff < reg_size - 1 then (1#64 <<< amount (diff + 1)) - 1#64 else reg_mask, diff)
    else
      let mask := (1#64 <<< amount (S + 1)) - 1#64
      ((mask >>> amount R) ||| (mask <<< amount (reg_size - R)), diff + reg_size)
  let opcode := insn &&& 0xFF800000#32
  let inzero_extend : Option (Bool × Bool) :=
    if opcode = 0x33000000#32 ∨ opcode = 0xB3000000#32 then some (false, false)
    else if opcode = 0x13000000#32 ∨ opcode = 0x93000000#32 then some (true, true)
    else if opcode = 0x53000000#32 ∨ opcode = 0xD3000000#32 then some (true, false)
    else none
  inzero_extend.map fun (inzero, extend) =>
    let dst := if inzero then 0#64 else rd
    let src := if is64 then rn else rn &&& 0xffffffff#64
    -- rotate source bitfield into place
    let result := (src >>> amount R) ||| (src <<< amount (reg_size - R))
    -- determine the sign extension
    let topbits := ((1#64 <<< amount (reg_size - diff - 1)) - 1#64) <<< amount (diff + 1)
    let signbits := if extend ∧ src.sshiftRight (amount S) &&& 1#64 ≠ 0#64 then topbits else 0#64
    -- merge sign extension, dest/zero and bitfield
    signbits ||| (result &&& mask) ||| (dst &&& ~~~ mask)

/-! ## The architecture -/

inductive bitfield_op where
  | SBFM | BFM | UBFM
  deriving DecidableEq, Repr

/-- The field `opc`. -/
def bitfield_op.opc : bitfield_op → BitVec 2
  | .SBFM => 0
  | .BFM => 1
  | .UBFM => 2

/-- The encodings of an operation: N is the width bit, and the fields of a 32-bit operation are
    below 32. -/
structure Encodes (insn : BitVec 32) (op : bitfield_op) : Prop where
  fixed : insn.extractLsb' 23 6 = 0b100110#6
  opc : insn.extractLsb' 29 2 = op.opc
  n : insn.getLsbD 22 = insn.getLsbD 31
  fields : insn.getLsbD 31 = false →
    (insn.extractLsb' 16 6).toNat < 32 ∧ (insn.extractLsb' 10 6).toNat < 32

/-- The lowest position of the field in the result. -/
def field_first (width R S : Nat) : Nat := if R ≤ S then 0 else width - R

/-- The highest position of the field in the result. -/
def field_last (width R S : Nat) : Nat := if R ≤ S then S - R else width - R + S

/-- One bit of the result, for a width and for the fields R and S. -/
def bitfield_bit (op : bitfield_op) (width R S : Nat) (src dst : BitVec 64) (i : Nat) : Bool :=
  if i < field_first width R S then
    match op with
    | .BFM => dst.getLsbD i
    | .SBFM | .UBFM => false
  else if i ≤ field_last width R S then
    -- the bits S to R, or the bits S to 0
    src.getLsbD (if R ≤ S then i + R else i - field_first width R S)
  else
    match op with
    | .SBFM => src.getLsbD S
    | .BFM => dst.getLsbD i
    | .UBFM => false

/-! ## Bits of the masks -/

theorem amount_of_lt {n : Nat} (h : n < 64) : amount n = n := by
  unfold amount
  omega

theorem getLsbD_ones {n i : Nat} (hn : n < 64) (hi : i < 64) :
    ((1#64 <<< n) - 1#64).getLsbD i = decide (i < n) := by
  have hpow : 2 ^ n < 2 ^ 64 := Nat.pow_lt_pow_right (by decide) hn
  have hpos := Nat.two_pow_pos n
  have heq : (1#64 <<< n) - 1#64 = BitVec.ofNat 64 (2 ^ n - 1) := by
    apply BitVec.eq_of_toNat_eq
    rw [BitVec.toNat_sub, BitVec.toNat_shiftLeft, BitVec.toNat_ofNat, BitVec.toNat_ofNat,
      Nat.shiftLeft_eq]
    omega
  rw [heq, BitVec.getLsbD_ofNat, Nat.testBit_two_pow_sub_one]
  simp [hi]

/-- The mask of a field that goes down to position 0. -/
theorem getLsbD_low_mask {width R S i : Nat} (hw : width ≤ 64) (hRS : R ≤ S) (hS : S < width)
    (hi : i < width) {reg_mask : BitVec 64} (hmask : ∀ j < width, reg_mask.getLsbD j = true) :
    (if (S : Int) - R < width - 1 then (1#64 <<< amount (S - R + 1)) - 1#64
      else reg_mask).getLsbD i = decide (i ≤ S - R) := by
  by_cases h : (S : Int) - R < width - 1
  · have hamount : amount ((S : Int) - R + 1) = S - R + 1 := by
      unfold amount
      omega
    rw [if_pos h, hamount, getLsbD_ones (by omega) (by omega)]
    exact decide_eq_decide.mpr (by omega)
  · -- the field is the whole register
    rw [if_neg h, hmask i hi]
    exact (decide_eq_true (by omega)).symm

/-- The mask of a field that goes up to the position `width - R`. -/
theorem getLsbD_high_mask {width R S i : Nat} (hw : width ≤ 64) (hSR : S < R) (hR : R < width)
    (hi : i < width) :
    ((((1#64 <<< amount (S + 1)) - 1#64) >>> amount R) |||
      (((1#64 <<< amount (S + 1)) - 1#64) <<< amount (width - R))).getLsbD i
      = decide (width - R ≤ i ∧ i ≤ width - R + S) := by
  have hones : amount ((S : Int) + 1) = S + 1 := by
    unfold amount
    omega
  have hdown : amount (R : Int) = R := amount_of_lt (by omega)
  have hup : amount ((width : Int) - R) = width - R := by
    unfold amount
    omega
  have hright : (((1#64 <<< (S + 1)) - 1#64) >>> R).getLsbD i = false := by
    rw [BitVec.getLsbD_ushiftRight]
    by_cases hlt : R + i < 64
    · rw [getLsbD_ones (by omega) hlt]
      exact decide_eq_false (by omega)
    · exact BitVec.getLsbD_of_ge _ _ (by omega)
  rw [hones, hdown, hup, BitVec.getLsbD_or, hright, Bool.false_or, BitVec.getLsbD_shiftLeft,
    decide_eq_true (show i < 64 by omega), Bool.true_and]
  by_cases hlow : i < width - R
  · have hout : ¬ (width - R ≤ i ∧ i ≤ width - R + S) := by omega
    rw [decide_eq_false hout]
    simp [hlow]
  · rw [getLsbD_ones (by omega) (by omega)]
    have heq : (i - (width - R) < S + 1) ↔ (width - R ≤ i ∧ i ≤ width - R + S) := by omega
    simp [hlow, heq]

/-- The rotated source. A rotation by 0 shifts the 64-bit word left by 64, that is by 0, and ors
    the source with itself. -/
theorem getLsbD_rotated {width R i : Nat} (hw : width = 64 ∨ width = 32) (hR : R < width)
    (hi : i < width) {src : BitVec 64} (hsrc : ∀ j, width ≤ j → src.getLsbD j = false) :
    ((src >>> amount R) ||| (src <<< amount (width - R))).getLsbD i
      = src.getLsbD (if i + R < width then i + R else i + R - width) := by
  have hdown : amount (R : Int) = R := amount_of_lt (by omega)
  rw [hdown, BitVec.getLsbD_or, BitVec.getLsbD_ushiftRight, BitVec.getLsbD_shiftLeft,
    decide_eq_true (show i < 64 by omega), Bool.true_and, Nat.add_comm R i]
  by_cases hlt : i + R < width
  · rw [if_pos hlt]
    by_cases hzero : width = 64 ∧ R = 0
    · have hup : amount ((width : Int) - R) = 0 := by
        unfold amount
        omega
      rw [hup, hzero.2]
      simp
    · have hup : amount ((width : Int) - R) = width - R := by
        unfold amount
        omega
      have hlow : i < width - R := by omega
      simp [hup, hlow]
  · have hup : amount ((width : Int) - R) = width - R := by
      unfold amount
      omega
    have hlow : ¬ i < width - R := by omega
    have hidx : i - (width - R) = i + R - width := by omega
    rw [if_neg hlt, hsrc (i + R) (by omega), hup, hidx]
    simp [hlow]

/-- The bits above the last one of the field. -/
theorem getLsbD_topbits {width last i : Nat} (hw : width ≤ 64) (hlast : last < width)
    (hi : i < width) :
    (((1#64 <<< amount ((width : Int) - last - 1)) - 1#64) <<< amount ((last : Int) + 1)).getLsbD i
      = decide (last < i) := by
  have hones : amount ((width : Int) - last - 1) = width - last - 1 := by
    unfold amount
    omega
  rw [hones, BitVec.getLsbD_shiftLeft, decide_eq_true (show i < 64 by omega), Bool.true_and]
  by_cases hfull : last + 1 = 64
  · -- there is no bit above, and the mask is empty wherever it is shifted to
    have hnone : width - last - 1 = 0 := by omega
    have hle : ¬ last < i := by omega
    simp [hnone, hle]
  · have hup : amount ((last : Int) + 1) = last + 1 := by
      unfold amount
      omega
    rw [hup]
    by_cases hle : i < last + 1
    · have hout : ¬ last < i := by omega
      simp [hle, hout]
    · rw [getLsbD_ones (by omega) (by omega)]
      have hin : i - (last + 1) < width - last - 1 := by omega
      have hout : last < i := by omega
      simp [hle, hin, hout]

/-- The bit that is looked at for the sign. -/
theorem sign_bit {S : Nat} (hS : S < 64) (src : BitVec 64) :
    (src.sshiftRight (amount S) &&& 1#64 ≠ 0#64) ↔ src.getLsbD S = true := by
  rw [amount_of_lt hS]
  have hbit : src.sshiftRight S &&& 1#64 = if src.getLsbD S then 1#64 else 0#64 := by
    apply BitVec.eq_of_getLsbD_eq
    intro i hi
    rw [BitVec.getLsbD_and, BitVec.getLsbD_one]
    by_cases h0 : i = 0
    · subst h0
      rw [BitVec.getLsbD_sshiftRight]
      cases src.getLsbD S <;> simp [hS]
    · cases src.getLsbD S <;> simp [h0]
  rw [hbit]
  cases src.getLsbD S <;> simp

/-! ## The result -/

/-- The fields of an encoding are below the width. -/
theorem Encodes.fields_lt {insn : BitVec 32} {op : bitfield_op} (h : Encodes insn op) :
    (insn.extractLsb' 16 6).toNat < register_width insn ∧
      (insn.extractLsb' 10 6).toNat < register_width insn := by
  unfold register_width
  by_cases hsf : insn.getLsbD 31 = true
  · rw [if_pos hsf]
    exact ⟨(insn.extractLsb' 16 6).isLt, (insn.extractLsb' 10 6).isLt⟩
  · rw [if_neg hsf]
    exact h.fields (Bool.not_eq_true _ ▸ hsf)

/-- The opcode bits of an encoding, of which the top one is the width. -/
theorem Encodes.opcode {insn : BitVec 32} {op : bitfield_op} (h : Encodes insn op) :
    insn &&& 0xFF800000#32
      = (BitVec.ofBool (insn.getLsbD 31) ++ op.opc ++ 0b100110#6 ++ 0#23) := by
  have hsf : insn.extractLsb' 31 1 = BitVec.ofBool (insn.getLsbD 31) := by
    apply BitVec.eq_of_getLsbD_eq
    intro i hi
    obtain rfl : i = 0 := by omega
    simp
  -- the nine opcode bits, and twenty-three others
  rw [← hsf, ← h.opc, ← h.fixed]
  apply BitVec.eq_of_getLsbD_eq
  intro i hi
  have hmask : ∀ j < 32, (0xFF800000#32).getLsbD j = decide (23 ≤ j) := by decide
  rw [BitVec.getLsbD_and, hmask i hi]
  simp only [BitVec.getLsbD_append, BitVec.getLsbD_extractLsb']
  by_cases h23 : i < 23
  · simp [h23]
  · have hle : 23 ≤ i := by omega
    by_cases h29 : i < 29
    · have hidx : 23 + (i - 23) = i := by omega
      have hlt : i - 23 < 6 := by omega
      simp [h23, hle, hidx, hlt]
    · have hlt : ¬ i - 23 < 6 := by omega
      by_cases h31 : i < 31
      · have hidx : 29 + (i - 23 - 6) = i := by omega
        have hlt2 : i - 23 - 6 < 2 := by omega
        simp [h23, hle, hlt, hidx, hlt2]
      · obtain rfl : i = 31 := by omega
        simp

/-- The three parts of the result, merged under the mask of the field. -/
theorem merged_bit {width R S i : Nat} (hw : width = 64 ∨ width = 32) (hR : R < width)
    (hS : S < width) (hi : i < width) (op : bitfield_op) {rn rd src mask : BitVec 64}
    (hsrc : ∀ j, src.getLsbD j = (decide (j < width) && rn.getLsbD j))
    (hmask : mask.getLsbD i = decide (field_first width R S ≤ i ∧ i ≤ field_last width R S)) :
    ((if op = .SBFM ∧ src.sshiftRight (amount S) &&& 1#64 ≠ 0#64 then
          ((1#64 <<< amount ((width : Int) - field_last width R S - 1)) - 1#64)
            <<< amount ((field_last width R S : Int) + 1)
        else 0#64) |||
      (((src >>> amount R) ||| (src <<< amount (width - R))) &&& mask) |||
      ((if op = .BFM then rd else 0#64) &&& ~~~ mask)).getLsbD i
      = bitfield_bit op width R S rn rd i := by
  have hlast : field_last width R S < width := by
    unfold field_last
    split <;> omega
  have hsrc_high : ∀ j, width ≤ j → src.getLsbD j = false := by
    intro j hj
    rw [hsrc j, decide_eq_false (by omega), Bool.false_and]
  have hsign : src.getLsbD S = rn.getLsbD S := by
    rw [hsrc S, decide_eq_true hS, Bool.true_and]
  have hrot := getLsbD_rotated hw hR hi hsrc_high
  have htop := getLsbD_topbits (by omega) hlast hi
  simp only [BitVec.getLsbD_or, BitVec.getLsbD_and, BitVec.getLsbD_not] at hrot ⊢
  rw [hrot, hmask, apply_ite (fun x : BitVec 64 => x.getLsbD i),
    apply_ite (fun x : BitVec 64 => x.getLsbD i), htop, BitVec.getLsbD_zero]
  simp only [sign_bit (show S < 64 by omega), hsign, show i < 64 by omega, decide_true,
    Bool.true_and]
  unfold bitfield_bit
  by_cases hlow : i < field_first width R S
  · -- below the field
    have hout : ¬ (field_first width R S ≤ i ∧ i ≤ field_last width R S) := by omega
    have hle : field_first width R S ≤ field_last width R S := by
      unfold field_first field_last
      split <;> omega
    have hnot : ¬ field_last width R S < i := by omega
    rw [if_pos hlow, decide_eq_false hout, decide_eq_false hnot]
    cases op <;> simp
  · rw [if_neg hlow]
    by_cases hhigh : i ≤ field_last width R S
    · -- in the field
      have hin : field_first width R S ≤ i ∧ i ≤ field_last width R S := by omega
      have hnot : ¬ field_last width R S < i := by omega
      have hidx : (if i + R < width then i + R else i + R - width)
          = if R ≤ S then i + R else i - field_first width R S := by
        unfold field_first field_last at hin
        unfold field_first
        by_cases hRS : R ≤ S
        · simp only [if_pos hRS] at hin ⊢
          rw [if_pos (by omega)]
        · simp only [if_neg hRS] at hin ⊢
          rw [if_neg (by omega)]
          omega
      have hlt : (if R ≤ S then i + R else i - field_first width R S) < width := by
        rw [← hidx]
        split <;> omega
      rw [if_pos hhigh, decide_eq_true hin, decide_eq_false hnot, hidx, hsrc, decide_eq_true hlt]
      cases op <;> simp
    · -- above the field
      have hout : ¬ (field_first width R S ≤ i ∧ i ≤ field_last width R S) := by omega
      rw [if_neg hhigh, decide_eq_false hout, decide_eq_true (by omega)]
      cases op <;> simp

/-- What the opcode says about the destination and the sign. -/
theorem Encodes.inzero_extend {insn : BitVec 32} {op : bitfield_op} (h : Encodes insn op) :
    (if insn &&& 0xFF800000#32 = 0x33000000#32 ∨ insn &&& 0xFF800000#32 = 0xB3000000#32 then
        some (false, false)
      else if insn &&& 0xFF800000#32 = 0x13000000#32 ∨ insn &&& 0xFF800000#32 = 0x93000000#32 then
        some (true, true)
      else if insn &&& 0xFF800000#32 = 0x53000000#32 ∨ insn &&& 0xFF800000#32 = 0xD3000000#32 then
        some (true, false)
      else none) = some (decide (op ≠ .BFM), decide (op = .SBFM)) := by
  rw [h.opcode]
  cases insn.getLsbD 31 <;> cases op <;> decide

/-- The source at the width of the instruction. -/
theorem getLsbD_source (is64 : Bool) (rn : BitVec 64) (j : Nat) :
    (if is64 then rn else rn &&& 0xffffffff#64).getLsbD j
      = (decide (j < if is64 then 64 else 32) && rn.getLsbD j) := by
  cases is64
  · have hmask : (0xffffffff#64).getLsbD j = decide (j < 32) := by
      by_cases hj : j < 64
      · revert j
        decide
      · rw [BitVec.getLsbD_of_ge _ _ (by omega)]
        exact (decide_eq_false (by omega)).symm
    rw [if_neg (by decide), if_neg (by decide), BitVec.getLsbD_and, hmask, Bool.and_comm]
  · by_cases hj : j < 64
    · simp [hj]
    · simp [BitVec.getLsbD_of_ge rn j (by omega)]

theorem bitfield_moves (insn : BitVec 32) (op : bitfield_op) (h : Encodes insn op)
    (rn rd : BitVec 64) :
    ∃ result, arm64_hlp_compute_bitfield insn rn rd = some result ∧
      ∀ i < register_width insn, result.getLsbD i
        = bitfield_bit op (register_width insn) (insn.extractLsb' 16 6).toNat
            (insn.extractLsb' 10 6).toNat rn rd i := by
  obtain ⟨hR, hS⟩ := h.fields_lt
  have hw : register_width insn = 64 ∨ register_width insn = 32 := by
    unfold register_width
    split <;> simp
  unfold arm64_hlp_compute_bitfield
  simp only [h.inzero_extend, Option.map_some]
  refine ⟨_, rfl, ?_⟩
  intro i hi
  have hsize : (if insn.getLsbD 31 = true then (64 : Int) else 32) = register_width insn := by
    unfold register_width
    split <;> rfl
  have hsrc : ∀ j, (if insn.getLsbD 31 = true then rn else rn &&& 0xffffffff#64).getLsbD j
      = (decide (j < register_width insn) && rn.getLsbD j) :=
    getLsbD_source (insn.getLsbD 31) rn
  have hones : ∀ j < register_width insn,
      (if insn.getLsbD 31 = true then BitVec.allOnes 64 else 0xffffffff#64).getLsbD j = true := by
    intro j hj
    have hbit : (if insn.getLsbD 31 = true then BitVec.allOnes 64 else 0xffffffff#64).getLsbD j
        = (decide (j < register_width insn) && (BitVec.allOnes 64).getLsbD j) :=
      getLsbD_source (insn.getLsbD 31) (BitVec.allOnes 64) j
    rw [hbit, decide_eq_true hj, BitVec.getLsbD_allOnes, decide_eq_true (by omega), Bool.true_and]
  generalize (insn.extractLsb' 16 6).toNat = R at *
  generalize (insn.extractLsb' 10 6).toNat = S at *
  simp only [hsize, decide_eq_true_eq, ite_not]
  by_cases hRS : R ≤ S
  · have hdiff : (0 : Int) ≤ S - R := by omega
    have hlast : (S : Int) - R = field_last (register_width insn) R S := by
      unfold field_last
      rw [if_pos hRS]
      omega
    have hmask := getLsbD_low_mask (by omega) hRS hS hi hones
    simp only [if_pos hdiff]
    generalize (if (S : Int) - R < register_width insn - 1 then _ else _) = mask at hmask ⊢
    rw [hlast]
    apply merged_bit hw hR hS hi op hsrc
    rw [hmask]
    unfold field_first field_last
    simp [hRS]
  · have hdiff : ¬ (0 : Int) ≤ S - R := by omega
    have hlast : (S : Int) - R + register_width insn = field_last (register_width insn) R S := by
      unfold field_last
      rw [if_neg hRS]
      omega
    have hSR : S < R := by omega
    have hmask := getLsbD_high_mask (by omega) hSR hR hi
    simp only [if_neg hdiff]
    rw [hlast]
    apply merged_bit hw hR hS hi op hsrc
    rw [hmask]
    unfold field_first field_last
    rw [if_neg hRS, if_neg hRS]

/-- UBFM of a full 64-bit register: every shift by the width is a shift by 0. -/
theorem bitfield_moves_full : Encodes 0xd340fc20#32 .UBFM ∧
    ∃ result, arm64_hlp_compute_bitfield 0xd340fc20#32 0x8000000000000001#64 0 = some result ∧
      ∀ i < register_width 0xd340fc20#32, result.getLsbD i
        = bitfield_bit .UBFM (register_width 0xd340fc20#32) 0 63 0x8000000000000001#64 0 i :=
  ⟨⟨by decide, by decide, by decide, by decide⟩,
    bitfield_moves _ .UBFM ⟨by decide, by decide, by decide, by decide⟩ _ _⟩

end Umeq.Arm64
