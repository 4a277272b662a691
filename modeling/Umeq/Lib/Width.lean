import Mathlib.Data.BitVec
import Mathlib.Tactic.Common

/-! # Widths of machine words

    Words of 8, 16, 32 and 64 bits that live in 64-bit registers. `low w` is what a
    register holds at a width, `mask w` the bits of it, and `merge` what is left in
    a register when only a part of it is written.
-/

namespace Words

/-! Numbers of parameters and of registers, for literals. -/

instance (priority := 2000) neZero_four : NeZero 4 := ⟨by decide⟩

instance (priority := 2000) neZero_eight : NeZero 8 := ⟨by decide⟩

instance (priority := 2000) neZero_sixteen : NeZero 16 := ⟨by decide⟩

inductive width where
  | w8 | w16 | w32 | w64
  deriving DecidableEq, Repr

def width.bits : width → Nat
  | .w8 => 8
  | .w16 => 16
  | .w32 => 32
  | .w64 => 64

def width.bytes : width → Nat
  | .w8 => 1
  | .w16 => 2
  | .w32 => 4
  | .w64 => 8

/-- The low bits of a register, extended with zeros. -/
def low (w : width) (x : BitVec 64) : BitVec 64 := (x.setWidth w.bits).setWidth 64

/-- A register holds a value of this width and nothing above it. -/
def Clean (w : width) (x : BitVec 64) : Prop := low w x = x

instance (w : width) (x : BitVec 64) : Decidable (Clean w x) := inferInstanceAs (Decidable (_ = _))

/-- The bits of a width. -/
def mask (w : width) : BitVec 64 := BitVec.ofNat 64 (2 ^ w.bits - 1)

/-- A register after a write of some width: 32-bit writes clear the upper half, the
    narrower ones leave what is above. -/
def merge (w : width) (old new : BitVec 64) : BitVec 64 :=
  match w with
  | .w32 => low .w32 new
  | w => (old &&& ~~~ mask w) ||| (new &&& mask w)

section lemmas

variable {w : width} {x y : BitVec 64}

theorem bits_le (w : width) : w.bits ≤ 64 := by cases w <;> decide

theorem bits_pos (w : width) : 0 < w.bits := by cases w <;> decide

theorem getElem_low (w : width) (x : BitVec 64) (i : Nat) (hi : i < 64) :
    (low w x)[i] = (decide (i < w.bits) && x[i]) := by
  have hle := bits_le w
  simp only [low, BitVec.getElem_setWidth, BitVec.getLsbD_setWidth]
  by_cases h : i < w.bits <;> simp [h, BitVec.getLsbD_eq_getElem hi]

theorem getElem_mask (w : width) (i : Nat) (hi : i < 64) : (mask w)[i] = decide (i < w.bits) := by
  rw [← BitVec.getLsbD_eq_getElem hi, mask, BitVec.getLsbD_ofNat, Nat.testBit_two_pow_sub_one]
  simp [hi]

/-- Two registers agree at a width. -/
theorem low_eq_iff : low w x = low w y ↔ x.setWidth w.bits = y.setWidth w.bits := by
  refine ⟨fun h => ?_, fun h => by unfold low; rw [h]⟩
  have hle := bits_le w
  have := congrArg (BitVec.setWidth w.bits) h
  simpa [low, BitVec.setWidth_setWidth_of_le, hle] using this

@[simp] theorem low_low (w : width) (x : BitVec 64) : low w (low w x) = low w x := by
  ext i hi
  simp only [getElem_low]
  cases decide (i < w.bits) <;> simp

@[simp] theorem low_w64 (x : BitVec 64) : low .w64 x = x := by
  simp [low, width.bits]

theorem clean_low (w : width) (x : BitVec 64) : Clean w (low w x) := low_low w x

theorem and_mask (w : width) (x : BitVec 64) : x &&& mask w = low w x := by
  ext i hi
  simp only [BitVec.getElem_and, getElem_low, getElem_mask, Bool.and_comm]

@[simp] theorem low_merge (w : width) (old new : BitVec 64) : low w (merge w old new) = low w new := by
  cases w with
  | w32 => simp [merge]
  | w8 | w16 | w64 =>
    ext i hi
    simp only [merge, getElem_low, BitVec.getElem_or, BitVec.getElem_and, BitVec.getElem_not,
      getElem_mask]
    cases decide (i < _) <;> simp

@[simp] theorem merge_w64 (old new : BitVec 64) : merge .w64 old new = new := by
  have := low_merge .w64 old new
  rwa [low_w64, low_w64] at this

theorem clean_iff_getElem : Clean w x ↔ ∀ i (hi : i < 64), w.bits ≤ i → x[i] = false := by
  refine ⟨?_, ?_⟩
  · intro h i hi hle
    have hbit := getElem_low w x i hi
    rw [show low w x = x from h] at hbit
    simpa [Nat.not_lt.mpr hle] using hbit
  · intro h
    show low w x = x
    ext i hi
    rw [getElem_low]
    by_cases hlt : i < w.bits
    · simp [hlt]
    · simp [h i hi (Nat.not_lt.mp hlt)]

/-- A register holds a value of this width. -/
theorem clean_iff_lt : Clean w x ↔ x.toNat < 2 ^ w.bits := by
  have hle := Nat.pow_le_pow_right (show 0 < 2 by decide) (bits_le w)
  have hlow : (low w x).toNat = x.toNat % 2 ^ w.bits := by
    simp only [low, BitVec.toNat_setWidth]
    exact Nat.mod_eq_of_lt (Nat.lt_of_lt_of_le (Nat.mod_lt _ (Nat.two_pow_pos _)) hle)
  unfold Clean
  rw [← BitVec.toNat_inj, hlow]
  exact ⟨fun h => h ▸ Nat.mod_lt _ (Nat.two_pow_pos _), Nat.mod_eq_of_lt⟩

theorem clean_w64 (x : BitVec 64) : Clean .w64 x := low_w64 x

theorem clean_merge_w32 (old new : BitVec 64) : Clean .w32 (merge .w32 old new) := clean_low .w32 new

/-- A narrow write leaves what is above. -/
theorem clean_merge_narrow (hw : w = .w8 ∨ w = .w16) (old new : BitVec 64) :
    Clean w (merge w old new) ↔ Clean w old := by
  have hmerge : merge w old new = (old &&& ~~~ mask w) ||| (new &&& mask w) := by
    rcases hw with rfl | rfl <;> rfl
  rw [clean_iff_getElem, clean_iff_getElem, hmerge]
  refine forall₂_congr fun i hi => imp_congr_right fun hle => ?_
  simp only [BitVec.getElem_or, BitVec.getElem_and, BitVec.getElem_not, getElem_mask,
    Nat.not_lt.mpr hle, decide_false, Bool.not_false, Bool.and_true, Bool.and_false, Bool.or_false]

end lemmas

end Words
