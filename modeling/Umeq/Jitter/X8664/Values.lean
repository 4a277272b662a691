import Umeq.Jitter.X8664.Host

/-! # What the host computes, at the width of the operation

    A host register holds at least the value of its virtual register, and maybe more
    above it. For each operation: what of the result is right whatever lies above, and
    which operands must hold no more than their values for it.
-/

namespace Umeq.Jitter.X86_64

open Words X86

section values

variable {w : width} {x y : BitVec 64}

theorem setWidth_low (w : width) (x : BitVec 64) : (low w x).setWidth w.bits = x.setWidth w.bits :=
  low_eq_iff.mp (low_low w x)

/-- The count of a shift, which is in a register of 8 bits. -/
theorem count_of_low {Y : BitVec 64} (hy : low .w8 Y = y) (hdef : y.toNat < 64) :
    Y.toNat % 256 = y.toNat ∧ Y.toNat % 64 = y.toNat := by
  have hlow : y.toNat = Y.toNat % 256 := by
    rw [← hy]
    simp only [low, width.bits, BitVec.toNat_setWidth]
    omega
  omega

theorem setWidth_sub {n m : Nat} (h : n ≤ m) (a b : BitVec m) :
    (a - b).setWidth n = a.setWidth n - b.setWidth n := by
  rw [BitVec.sub_eq_add_neg, BitVec.setWidth_add _ _ h, BitVec.setWidth_neg_of_le h,
    ← BitVec.sub_eq_add_neg]

/-- A binary operation. Right shifts and comparisons look at all of their operands; the
    narrow arithmetic shifts are lowered in another way. -/
theorem low_host_binop {type : irBinopType} {X Y : BitVec 64} (hx : low w X = x)
    (hy : low (type.op2_type w) Y = y) (hdef : type.defined w y)
    (hop1 : type = .SHR ∨ type = .CMPEQ ∨ type = .CMPNE → Clean w X)
    (hop2 : type = .CMPEQ ∨ type = .CMPNE → Clean w Y) (hasr : type = .ASR → w = .w64) :
    low w (host_binop type w X Y) = low w (type.eval w x y) := by
  have hX : X.setWidth w.bits = x.setWidth w.bits := by rw [← hx, setWidth_low]
  have hle := bits_le w
  cases type with
  | ADD =>
    have hY : Y.setWidth w.bits = y.setWidth w.bits := by rw [← hy]; exact (setWidth_low w Y).symm
    simp only [host_binop, irBinopType.eval, low_low, low_eq_iff]
    rw [BitVec.setWidth_add _ _ hle, BitVec.setWidth_add _ _ hle, hX, hY]
  | SUB =>
    have hY : Y.setWidth w.bits = y.setWidth w.bits := by rw [← hy]; exact (setWidth_low w Y).symm
    simp only [host_binop, irBinopType.eval, low_low, low_eq_iff]
    rw [setWidth_sub hle, setWidth_sub hle, hX, hY]
  | XOR | AND | OR =>
    have hY : Y.setWidth w.bits = y.setWidth w.bits := by rw [← hy]; exact (setWidth_low w Y).symm
    simp only [host_binop, irBinopType.eval, low_low, low_eq_iff, BitVec.setWidth_xor,
      BitVec.setWidth_and, BitVec.setWidth_or, hX, hY]
  | SHL =>
    have hcount := count_of_low hy (Nat.lt_of_lt_of_le hdef hle)
    simp only [host_binop, irBinopType.eval, low_low, low_eq_iff, hcount.2]
    rw [BitVec.setWidth_shiftLeft_of_le hle, BitVec.setWidth_shiftLeft_of_le hle, hX]
  | SHR =>
    have hcount := count_of_low hy (Nat.lt_of_lt_of_le hdef hle)
    have hclean : X = x := (hop1 (.inl rfl)).symm.trans hx
    subst hclean
    simp only [host_binop, irBinopType.eval, hcount.2, hx]
  | ASR =>
    obtain rfl := hasr rfl
    have hcount := count_of_low hy hdef
    have hclean : X = x := (low_w64 X).symm.trans hx
    subst hclean
    simp only [host_binop, irBinopType.eval, hcount.2, width.bits, BitVec.setWidth_eq]
  | ROR =>
    have hcount := count_of_low hy (Nat.lt_of_lt_of_le hdef hle)
    have hshift : shift_count w (Y.toNat % 256) = y.toNat := by
      rw [hcount.1]
      change y.toNat < w.bits at hdef
      cases w <;> simp only [shift_count, width.bits] at * <;> simp <;> omega
    simp only [host_binop, irBinopType.eval, low_merge, hshift, shift.eval, hX]
  | CMPEQ =>
    have h₁ : X = x := (hop1 (.inr (.inl rfl))).symm.trans hx
    have h₂ : Y = y := (hop2 (.inl rfl)).symm.trans hy
    subst h₁ h₂
    have hyl : low w Y = Y := hy
    simp only [host_binop, irBinopType.eval, low_low, hx, hyl]
  | CMPNE =>
    have h₁ : X = x := (hop1 (.inr (.inr rfl))).symm.trans hx
    have h₂ : Y = y := (hop2 (.inr rfl)).symm.trans hy
    subst h₁ h₂
    have hyl : low w Y = Y := hy
    simp only [host_binop, irBinopType.eval, low_low, hx, hyl]

/-! ## Sign extension -/

theorem sign_shift_eq (w : width) : sign_shift w = 64 - w.bits := by
  cases w <;> rfl

/-- A shift to the left and back leaves the sign in all the bits above. -/
theorem getLsbD_sign_extend (w : width) (x : BitVec 64) {i : Nat} (hi : i < 64) :
    ((x <<< sign_shift w).sshiftRight (sign_shift w)).getLsbD i =
      x.getLsbD (if i < w.bits then i else w.bits - 1) := by
  have hpos := bits_pos w
  have hle := bits_le w
  have hmsb : (x <<< (64 - w.bits)).msb = x.getLsbD (w.bits - 1) := by
    have h₁ : ¬ 64 - 1 < 64 - w.bits := by omega
    have h₂ : 64 - 1 - (64 - w.bits) = w.bits - 1 := by omega
    rw [BitVec.msb_eq_getLsbD_last, BitVec.getLsbD_shiftLeft, h₂]
    simp [h₁]
  rw [sign_shift_eq, BitVec.getLsbD_sshiftRight, hmsb]
  by_cases hlt : i < w.bits
  · have h₁ : 64 - w.bits + i < 64 := by omega
    have h₂ : ¬ 64 - w.bits + i < 64 - w.bits := by omega
    have h₃ : 64 - w.bits + i - (64 - w.bits) = i := by omega
    rw [if_pos h₁, if_pos hlt, BitVec.getLsbD_shiftLeft, h₃]
    simp [h₁, h₂, hi]
  · rw [if_neg (by omega), if_neg hlt]
    simp [hi]

/-- A narrow arithmetic shift, whose operand is sign extended first. -/
theorem low_narrow_asr {X Y : BitVec 64} (hx : low w X = x) (hy : low .w8 Y = y)
    (hdef : y.toNat < w.bits) :
    low w (((X <<< sign_shift w).sshiftRight (sign_shift w)).sshiftRight (Y.toNat % 64)) =
      low w (irBinopType.ASR.eval w x y) := by
  have hle := bits_le w
  have hpos := bits_pos w
  have hX : ∀ i, i < w.bits → (x.setWidth w.bits).getLsbD i = X.getLsbD i := by
    intro i hi
    rw [← hx, setWidth_low, BitVec.getLsbD_setWidth]
    simp [hi]
  rw [(count_of_low hy (Nat.lt_of_lt_of_le hdef hle)).2]
  ext i hi
  simp only [getElem_low]
  by_cases hlt : i < w.bits
  · have hleft : (((X <<< sign_shift w).sshiftRight (sign_shift w)).sshiftRight y.toNat).getLsbD i =
        X.getLsbD (if y.toNat + i < w.bits then y.toNat + i else w.bits - 1) := by
      rw [BitVec.getLsbD_sshiftRight, BitVec.msb_eq_getLsbD_last,
        getLsbD_sign_extend w X (show 64 - 1 < 64 by decide)]
      by_cases hin : y.toNat + i < 64
      · rw [if_pos hin, getLsbD_sign_extend w X hin]
        simp [hi]
      · -- only the widest shift looks past the register
        have h₁ : ¬ y.toNat + i < w.bits := by omega
        have h₂ : (if 64 - 1 < w.bits then 64 - 1 else w.bits - 1) = w.bits - 1 := by
          split_ifs <;> omega
        rw [if_neg hin, if_neg h₁, h₂]
        simp [hi]
    have hright : ((x.setWidth w.bits).sshiftRight y.toNat).getLsbD i =
        X.getLsbD (if y.toNat + i < w.bits then y.toNat + i else w.bits - 1) := by
      rw [BitVec.getLsbD_sshiftRight, BitVec.msb_eq_getLsbD_last, hX (w.bits - 1) (by omega)]
      by_cases hin : y.toNat + i < w.bits
      · rw [if_pos hin, if_pos hin, hX _ hin]
        simp [hlt]
      · rw [if_neg hin, if_neg hin]
        simp [hlt]
    simp only [hlt, decide_true, Bool.true_and, irBinopType.eval]
    rw [BitVec.getElem_setWidth, hright, ← BitVec.getLsbD_eq_getElem, hleft]
  · simp [hlt]

/-! ## Casts and stores -/

/-- The bits that a cast looks at. -/
def cast_looks (type : irCastType) : width :=
  if type.source.bits ≤ type.target.bits then type.source else type.target

theorem low_host_cast {type : irCastType} {X : BitVec 64}
    (hx : low (cast_looks type) X = low (cast_looks type) x) :
    low type.target (host_cast type X) = low type.target (type.eval x) := by
  have hsource := bits_le type.source
  have htarget := bits_le type.target
  unfold host_cast irCastType.eval
  rw [low_low]
  by_cases hsigned : type.signed
  · have hlooks : cast_looks type = type.source := by
      revert hsigned
      cases type <;> decide
    rw [hlooks, low_eq_iff] at hx
    rw [if_pos hsigned, if_pos hsigned, ← hx]
    congr 1
    ext i hi
    rw [← BitVec.getLsbD_eq_getElem, getLsbD_sign_extend _ _ hi, ← BitVec.getLsbD_eq_getElem,
      BitVec.getLsbD_signExtend, BitVec.msb_eq_getLsbD_last, BitVec.getLsbD_setWidth,
      BitVec.getLsbD_setWidth]
    have hpos := bits_pos type.source
    split_ifs <;> simp [hi] <;> omega
  · rw [if_neg hsigned, if_neg hsigned]
    by_cases hle : type.source.bits ≤ type.target.bits
    · rw [cast_looks, if_pos hle, low_eq_iff] at hx
      rw [if_pos hle, ← hx]
      rfl
    · rw [cast_looks, if_neg hle] at hx
      rw [if_neg hle, low_low, hx]
      rw [low_eq_iff, BitVec.setWidth_setWidth_of_le _ (by omega),
        BitVec.setWidth_setWidth_of_le _ (by omega)]

/-- A wider value is right at a narrower width. -/
theorem low_of_low {w' : width} (h : w'.bits ≤ w.bits) {X : BitVec 64} (hx : low w X = x) :
    low w' X = low w' x := by
  rw [← hx, low_eq_iff]
  ext i hi
  have hle := bits_le w
  simp only [BitVec.getElem_setWidth, low, BitVec.getLsbD_setWidth]
  simp [show i < 64 by omega, show i < w.bits by omega]

/-- A store looks at the low bytes of a register. -/
theorem store_low (m : Bytes.Mem) (a : Nat) {X : BitVec 64} (hx : low w X = low w x) :
    m.store a w.bytes X.toNat = m.store a w.bytes x.toNat := by
  have hmod : ∀ v : BitVec 64, (low w v).toNat = v.toNat % 256 ^ w.bytes := by
    intro v
    cases w <;> simp only [low, width.bits, width.bytes, BitVec.toNat_setWidth] <;> omega
  have hX := hmod X
  rw [hx, hmod x] at hX
  unfold Bytes.Mem.store
  rw [← Bytes.le_mod, ← hX, Bytes.le_mod]

end values

end Umeq.Jitter.X86_64
