import Mathlib.Data.BitVec
import Mathlib.Tactic.Common

/-! # Shifts with a carry

    The shifts of the ARM architectures, as their reference manual defines them: on a word
    that is extended as far as the shift needs. Each is given back as a shift of the word
    and as one bit of it, which is how programs compute the result and the carry.

    The shifts of a C program are those of the host, which takes the amount modulo the
    width (`host_shl`, `host_shr`, `host_sar`).
-/

namespace Shifts

section architecture

variable {w : Nat}

/-- `LSL_C`, on the word with zeros below. -/
def LSL_C (x : BitVec w) (shift : Nat) : BitVec w × Bool :=
  let extended_x := x ++ BitVec.ofNat shift 0
  (extended_x.setWidth w, extended_x.getLsbD w)

/-- `LSR_C`, on the word with zeros above. -/
def LSR_C (x : BitVec w) (shift : Nat) : BitVec w × Bool :=
  let extended_x := x.setWidth (shift + w)
  (extended_x.extractLsb' shift w, extended_x.getLsbD (shift - 1))

/-- `ASR_C`, on the word with its sign above. -/
def ASR_C (x : BitVec w) (shift : Nat) : BitVec w × Bool :=
  let extended_x := x.signExtend (shift + w)
  (extended_x.extractLsb' shift w, extended_x.getLsbD (shift - 1))

/-- `ROR_C`. -/
def ROR_C (x : BitVec w) (shift : Nat) : BitVec w × Bool :=
  let m := shift % w
  let result := (x >>> m) ||| (x <<< (w - m))
  (result, result.msb)

/-- `RRX_C`: one place to the right, through the carry. -/
def RRX_C (x : BitVec w) (carry_in : Bool) : BitVec w × Bool :=
  ((x >>> 1) ||| (BitVec.ofBool carry_in).setWidth w <<< (w - 1), x.getLsbD 0)

inductive SRType where
  | LSL | LSR | ASR | ROR | RRX
  deriving DecidableEq, Repr

/-- `Shift_C`. -/
def Shift_C (value : BitVec w) (type : SRType) (amount : Nat) (carry_in : Bool) : BitVec w × Bool :=
  if amount = 0 then (value, carry_in)
  else match type with
    | .LSL => LSL_C value amount
    | .LSR => LSR_C value amount
    | .ASR => ASR_C value amount
    | .ROR => ROR_C value amount
    | .RRX => RRX_C value carry_in

/-- `DecodeImmShift`: a shift by an immediate, with the special meanings of 0. -/
def DecodeImmShift (type : BitVec 2) (imm5 : BitVec 5) : SRType × Nat :=
  match type.toNat with
  | 0 => (.LSL, imm5.toNat)
  | 1 => (.LSR, if imm5 = 0 then 32 else imm5.toNat)
  | 2 => (.ASR, if imm5 = 0 then 32 else imm5.toNat)
  | _ => if imm5 = 0 then (.RRX, 1) else (.ROR, imm5.toNat)

/-- `DecodeRegShift`. -/
def DecodeRegShift (type : BitVec 2) : SRType :=
  match type.toNat with
  | 0 => .LSL
  | 1 => .LSR
  | 2 => .ASR
  | _ => .ROR

end architecture

/-! ## Results and carries -/

section lemmas

variable {w : Nat} (x : BitVec w) (n : Nat)

theorem LSL_C_result : (LSL_C x n).1 = x <<< n := by
  apply BitVec.eq_of_getLsbD_eq
  intro i hi
  simp only [LSL_C, BitVec.getLsbD_setWidth, BitVec.getLsbD_append, BitVec.getLsbD_shiftLeft, hi,
    decide_true, Bool.true_and, BitVec.getLsbD_zero]
  by_cases h : i < n <;> simp [h]

theorem LSL_C_carry : (LSL_C x n).2 = (decide (n ≤ w) && x.getLsbD (w - n)) := by
  simp only [LSL_C, BitVec.getLsbD_append, BitVec.getLsbD_zero]
  by_cases h : n ≤ w
  · simp [h, Nat.not_lt.mpr h]
  · simp [h, Nat.lt_of_not_le h]

theorem LSR_C_result : (LSR_C x n).1 = x >>> n := by
  apply BitVec.eq_of_getLsbD_eq
  intro i hi
  simp only [LSR_C, BitVec.getLsbD_extractLsb', BitVec.getLsbD_setWidth, BitVec.getLsbD_ushiftRight,
    hi, decide_true, Bool.true_and, Nat.add_lt_add_iff_left]

theorem LSR_C_carry (hn : 0 < n) : (LSR_C x n).2 = x.getLsbD (n - 1) := by
  have hlt : n - 1 < n + w := by omega
  simp only [LSR_C, BitVec.getLsbD_setWidth, hlt, decide_true, Bool.true_and]

theorem ASR_C_result : (ASR_C x n).1 = x.sshiftRight n := by
  apply BitVec.eq_of_getLsbD_eq
  intro i hi
  have hle : ¬ w ≤ i := by omega
  simp only [ASR_C, BitVec.getLsbD_extractLsb', BitVec.getLsbD_signExtend,
    BitVec.getLsbD_sshiftRight, hi, hle, decide_true, Bool.true_and, Nat.add_lt_add_iff_left,
    decide_false, Bool.not_false]

theorem ASR_C_carry (hn : 0 < n) :
    (ASR_C x n).2 = if n - 1 < w then x.getLsbD (n - 1) else x.msb := by
  have hlt : n - 1 < n + w := by omega
  simp only [ASR_C, BitVec.getLsbD_signExtend, hlt, decide_true, Bool.true_and]

theorem ROR_C_result : (ROR_C x n).1 = x.rotateRight n := rfl

/-- The carry of a rotation is the last bit that went around. -/
theorem ROR_C_carry (hw : 0 < w) :
    (ROR_C x n).2 = if n % w = 0 then x.msb else x.getLsbD (n % w - 1) := by
  have hmod := Nat.mod_lt n hw
  have hcarry : (ROR_C x n).2 = (x.rotateRight n).getLsbD (w - 1) := BitVec.msb_eq_getLsbD_last _
  rw [hcarry, BitVec.getLsbD_rotateRight, BitVec.msb_eq_getLsbD_last]
  have hlast : w - 1 < w := by omega
  by_cases h : n % w = 0
  · simp only [h, Nat.sub_zero, hlast, decide_true, cond_true, Nat.zero_add, if_true]
  · have hlt : ¬ w - 1 < w - n % w := by omega
    have hsub : w - 1 - (w - n % w) = n % w - 1 := by omega
    simp only [hlt, h, if_false, hsub, hlast, decide_true, decide_false, Bool.true_and, cond_false]

/-! A shift by something is one of these. -/

section kinds

variable {n} (hn : n ≠ 0) (carry_in : Bool)
include hn

theorem Shift_C_LSL : Shift_C x .LSL n carry_in = LSL_C x n := if_neg hn

theorem Shift_C_LSR : Shift_C x .LSR n carry_in = LSR_C x n := if_neg hn

theorem Shift_C_ASR : Shift_C x .ASR n carry_in = ASR_C x n := if_neg hn

theorem Shift_C_ROR : Shift_C x .ROR n carry_in = ROR_C x n := if_neg hn

end kinds

end lemmas

/-! ## The shifts of the host -/

section host

variable {w : Nat}

def host_shl (x : BitVec w) (n : Nat) : BitVec w := x <<< (n % w)

def host_shr (x : BitVec w) (n : Nat) : BitVec w := x >>> (n % w)

def host_sar (x : BitVec w) (n : Nat) : BitVec w := x.sshiftRight (n % w)

variable {n : Nat} (x : BitVec w)

theorem host_shl_of_lt (h : n < w) : host_shl x n = x <<< n := by rw [host_shl, Nat.mod_eq_of_lt h]

theorem host_shr_of_lt (h : n < w) : host_shr x n = x >>> n := by rw [host_shr, Nat.mod_eq_of_lt h]

theorem host_sar_of_lt (h : n < w) : host_sar x n = x.sshiftRight n := by
  rw [host_sar, Nat.mod_eq_of_lt h]

end host

/-! ## Fields -/

/-- A field that is shifted to the top of a register and back, to a place `u` bits above its
    own. -/
theorem sign_extend_shifts {w k n u : Nat} (x : BitVec k) (hk : 0 < k) (hn : n + k = w)
    (hu : u ≤ n) : (x.setWidth w <<< n).sshiftRight (n - u) = x.signExtend w <<< u := by
  apply BitVec.eq_of_getLsbD_eq
  intro i hi
  rw [BitVec.getLsbD_sshiftRight, BitVec.msb_eq_getLsbD_last, BitVec.getLsbD_shiftLeft,
    BitVec.getLsbD_shiftLeft, BitVec.getLsbD_shiftLeft, BitVec.getLsbD_signExtend,
    BitVec.getLsbD_setWidth, BitVec.getLsbD_setWidth, BitVec.msb_eq_getLsbD_last]
  have h1 : ¬ w ≤ i := by omega
  have h2 : w - 1 < w := by omega
  have h3 : ¬ w - 1 < n := by omega
  have h4 : w - 1 - n = k - 1 := by omega
  by_cases hlow : i < u
  · have h5 : n - u + i < w := by omega
    have h6 : n - u + i < n := by omega
    simp [h1, hlow, h5, h6]
  · by_cases htop : n - u + i < w
    · have h5 : ¬ n - u + i < n := by omega
      have h6 : n - u + i - n = i - u := by omega
      have h7 : i - u < k := by omega
      have h8 : i - u < w := by omega
      simp [h1, hi, hlow, htop, h5, h6, h7, h8]
    · have h7 : ¬ i - u < k := by omega
      have h8 : i - u < w := by omega
      have h9 : k - 1 < w := by omega
      simp [h1, h2, h3, h4, hi, hlow, htop, h7, h8, h9]

theorem shiftLeft_eq_mul {w : Nat} (x : BitVec w) (n : Nat) :
    x <<< n = x * BitVec.ofNat w (2 ^ n) := by
  rw [BitVec.shiftLeft_eq_mul_twoPow]
  congr 1
  apply BitVec.eq_of_toNat_eq
  rw [BitVec.toNat_twoPow, BitVec.toNat_ofNat]

end Shifts
