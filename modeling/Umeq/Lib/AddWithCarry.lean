import Mathlib.Data.BitVec
import Mathlib.Tactic.Common
import Mathlib.Tactic.FinCases

/-! # Additions and the four flags

    `AddWithCarry` of the ARM architectures, over the integers: the sum of two words and
    of a carry, and the flags that tell whether it is negative or zero and whether it
    fits the unsigned and the signed words.

    Programs find the carry and the overflow by looking at the bits of the operands and
    of the result (`carry_out`, `overflow_out`). A subtraction is the sum with the
    complement and a carry (`sub`), and the flags it leaves tell how the operands compare
    (`holds_sub`).
-/

namespace AddWithCarry

/-- The flags N, Z, C and V. -/
@[ext]
structure flags where
  n : Bool
  z : Bool
  c : Bool
  v : Bool
  deriving DecidableEq, Repr

section words

variable {w : Nat}

/-- The flags of a result alone. -/
def logical (result : BitVec w) (c v : Bool) : flags := ⟨result.msb, result = 0, c, v⟩

/-- The sum of two words and of a carry, and its flags. -/
def add (x y : BitVec w) (carry_in : Bool) : BitVec w × flags :=
  let unsigned_sum : Nat := x.toNat + y.toNat + carry_in.toNat
  let signed_sum : Int := x.toInt + y.toInt + carry_in.toNat
  let result := BitVec.ofNat w unsigned_sum
  (result, logical result (result.toNat ≠ unsigned_sum) (result.toInt ≠ signed_sum))

/-- A difference, as the sum with the complement. -/
def sub (x y : BitVec w) : BitVec w × flags := add x (~~~ y) true

/-! ## Results -/

theorem add_result (x y : BitVec w) (carry_in : Bool) :
    (add x y carry_in).1 = x + y + BitVec.ofNat w carry_in.toNat := by
  apply BitVec.eq_of_toNat_eq
  simp only [add, BitVec.toNat_ofNat, BitVec.toNat_add]
  simp [Nat.add_mod]

theorem add_comm (x y : BitVec w) (carry_in : Bool) : add x y carry_in = add y x carry_in := by
  simp only [add, Nat.add_comm x.toNat, Int.add_comm x.toInt]

theorem sub_result (x y : BitVec w) : (sub x y).1 = x - y := by
  have hone : (1 : BitVec w) = BitVec.ofNat w true.toNat := rfl
  rw [sub, add_result, ← hone, BitVec.sub_eq_add_neg, BitVec.neg_eq_not_add, BitVec.add_assoc]
  rfl

/-! ## The carry -/

/-- A sum of two words and of a carry goes past the words once at most. -/
theorem mod_sum (x y : BitVec w) {c : Nat} (hc : c ≤ 1) :
    (x.toNat + y.toNat + c < 2 ^ w ∧ (x.toNat + y.toNat + c) % 2 ^ w = x.toNat + y.toNat + c) ∨
    (2 ^ w ≤ x.toNat + y.toNat + c ∧
      (x.toNat + y.toNat + c) % 2 ^ w + 2 ^ w = x.toNat + y.toNat + c) := by
  have hx := x.isLt
  have hy := y.isLt
  by_cases h : x.toNat + y.toNat + c < 2 ^ w
  · exact .inl ⟨h, Nat.mod_eq_of_lt h⟩
  · refine .inr ⟨by omega, ?_⟩
    rw [Nat.mod_eq_sub_mod (by omega), Nat.mod_eq_of_lt (by omega)]
    omega

/-- The carry, from the result and one of the operands. -/
theorem carry_out (x y : BitVec w) (carry_in : Bool) : (add x y carry_in).2.c =
    decide (if carry_in then (add x y carry_in).1 ≤ x else (add x y carry_in).1 < x) := by
  have hy := y.isLt
  have hsum := mod_sum x y (Bool.toNat_le carry_in)
  cases carry_in with
  | false =>
    simp only [add, logical, BitVec.lt_def, BitVec.toNat_ofNat, Bool.false_eq_true, if_false]
    rw [decide_eq_decide]
    simp only [Bool.toNat_false] at *
    omega
  | true =>
    simp only [add, logical, BitVec.le_def, BitVec.toNat_ofNat, if_true]
    rw [decide_eq_decide]
    simp only [Bool.toNat_true] at *
    omega

/-- A difference carries when nothing is borrowed. -/
theorem sub_carry_out (x y : BitVec w) : (sub x y).2.c = decide (y ≤ x) := by
  have hx := x.isLt
  have hy := y.isLt
  rw [sub, carry_out]
  simp only [if_true, decide_eq_decide, BitVec.le_def, add, BitVec.toNat_ofNat, BitVec.toNat_not,
    Bool.toNat_true]
  by_cases h : y.toNat ≤ x.toNat
  · rw [Nat.mod_eq_sub_mod (by omega), Nat.mod_eq_of_lt (by omega)]
    omega
  · rw [Nat.mod_eq_of_lt (by omega)]
    omega

/-! ## The overflow -/

/-- A word as a signed number, by its sign. -/
theorem toInt_cases (x : BitVec w) :
    (x.msb = false ∧ 2 * x.toNat < 2 ^ w ∧ x.toInt = x.toNat) ∨
    (x.msb = true ∧ 2 ^ w ≤ 2 * x.toNat ∧ x.toInt = x.toNat - (2 ^ w : Nat)) := by
  have hmsb := BitVec.toInt_eq_msb_cond x
  have hcond := BitVec.toInt_eq_toNat_cond x
  have hpos := Nat.two_pow_pos w
  cases h : x.msb with
  | false =>
    rw [h, if_neg Bool.false_ne_true] at hmsb
    split_ifs at hcond with hlt
    · exact .inl ⟨rfl, hlt, hmsb⟩
    · omega
  | true =>
    rw [h, if_pos rfl] at hmsb
    split_ifs at hcond with hlt
    · omega
    · exact .inr ⟨rfl, by omega, hmsb⟩

/-- A sum overflows when both operands have the sign that the result has not. -/
theorem overflow_out (hw : 0 < w) (x y : BitVec w) (carry_in : Bool) : (add x y carry_in).2.v =
    (((add x y carry_in).1 ^^^ x) &&& ((add x y carry_in).1 ^^^ y)).msb := by
  have heven : 2 ^ w = 2 * 2 ^ (w - 1) := by
    rw [← Nat.pow_succ', Nat.succ_eq_add_one, Nat.sub_add_cancel hw]
  have hin : carry_in.toNat ≤ 1 := Bool.toNat_le carry_in
  have hsum := mod_sum x y hin
  have hresult : (add x y carry_in).1.toNat = (x.toNat + y.toNat + carry_in.toNat) % 2 ^ w := by
    simp [add]
  have hv : (add x y carry_in).2.v =
      !decide ((add x y carry_in).1.toInt = x.toInt + y.toInt + carry_in.toNat) := by
    simp [add, logical]
  rw [hv, BitVec.msb_and, BitVec.msb_xor, BitVec.msb_xor]
  rw [← hresult] at hsum
  generalize (add x y carry_in).1 = r at *
  -- the signs of the operands and of the result; the rest is whether the sum has carried
  rcases toInt_cases x with ⟨hmx, hbx, hix⟩ | ⟨hmx, hbx, hix⟩ <;>
    rcases toInt_cases y with ⟨hmy, hby, hiy⟩ | ⟨hmy, hby, hiy⟩ <;>
      rcases toInt_cases r with ⟨hmr, hbr, hir⟩ | ⟨hmr, hbr, hir⟩ <;>
        rw [hmx, hmy, hmr, hix, hiy, hir] <;>
          simp only [Bool.xor_false, Bool.xor_true, Bool.not_true, Bool.not_false, Bool.and_true,
            Bool.and_false, Bool.not_eq_true', Bool.not_eq_false', decide_eq_true_eq,
            decide_eq_false_iff_not] <;> omega

/-- A difference overflows when its operands have different signs and the result has not
    that of the first. -/
theorem sub_overflow_out (hw : 0 < w) (x y : BitVec w) (carry_in : Bool) :
    (add x (~~~ y) carry_in).2.v = ((x ^^^ y) &&& (x ^^^ (add x (~~~ y) carry_in).1)).msb := by
  rw [overflow_out hw]
  generalize (add x (~~~ y) carry_in).1 = r
  simp only [BitVec.msb_and, BitVec.msb_xor, BitVec.msb_not, hw, decide_true, Bool.true_and]
  cases x.msb <;> cases y.msb <;> cases r.msb <;> rfl

/-! ## All flags, as programs compute them -/

theorem adc_flags (hw : 0 < w) (x y : BitVec w) (carry_in : Bool) : (add x y carry_in).2 =
    let r := x + y + BitVec.ofNat w carry_in.toNat
    ⟨r.msb, r = 0, decide (if carry_in then r ≤ x else r < x), ((r ^^^ x) &&& (r ^^^ y)).msb⟩ := by
  have hcarry := carry_out x y carry_in
  have hoverflow := overflow_out hw x y carry_in
  have hn : (add x y carry_in).2.n = (add x y carry_in).1.msb := rfl
  have hz : (add x y carry_in).2.z = decide ((add x y carry_in).1 = 0) := rfl
  rw [add_result] at *
  exact flags.ext hn hz hcarry hoverflow

theorem sbc_flags (hw : 0 < w) (x y : BitVec w) (carry_in : Bool) : (add x (~~~ y) carry_in).2 =
    let r := x + ~~~ y + BitVec.ofNat w carry_in.toNat
    ⟨r.msb, r = 0, decide (if carry_in then r ≤ x else r < x), ((x ^^^ y) &&& (x ^^^ r)).msb⟩ := by
  have hoverflow := sub_overflow_out hw x y carry_in
  rw [add_result] at hoverflow
  rw [adc_flags hw] at *
  exact flags.ext rfl rfl rfl hoverflow

theorem add_flags (hw : 0 < w) (x y : BitVec w) : (add x y false).2 =
    ⟨(x + y).msb, x + y = 0, decide (x + y < x), ((x + y ^^^ x) &&& (x + y ^^^ y)).msb⟩ := by
  rw [adc_flags hw]
  simp

theorem sub_flags (hw : 0 < w) (x y : BitVec w) : (sub x y).2 =
    ⟨(x - y).msb, x - y = 0, decide (y ≤ x), ((x ^^^ y) &&& (x ^^^ (x - y))).msb⟩ := by
  have hcarry := sub_carry_out x y
  have hoverflow := sub_overflow_out hw x y true
  have hn : (sub x y).2.n = (sub x y).1.msb := rfl
  have hz : (sub x y).2.z = decide ((sub x y).1 = 0) := rfl
  rw [← sub] at hoverflow
  rw [sub_result] at *
  exact flags.ext hn hz hcarry hoverflow

end words

/-! ## Conditions -/

/-- `ConditionHolds` of the 64-bit architecture. -/
def flags.holds (f : flags) (cond : BitVec 4) : Bool :=
  let result := match (cond >>> 1).toNat with
    | 0 => f.z
    | 1 => f.c
    | 2 => f.n
    | 3 => f.v
    | 4 => f.c && !f.z
    | 5 => f.n == f.v
    | 6 => !f.z && f.n == f.v
    | _ => true
  if cond.getLsbD 0 && cond ≠ 15 then !result else result

/-- Whether the comparison of two words that a condition stands for is true. -/
def compares {w : Nat} (cond : BitVec 4) (x y : BitVec w) : Bool :=
  match cond.toNat with
  | 0 => x.toNat = y.toNat
  | 1 => x.toNat ≠ y.toNat
  | 2 => y.toNat ≤ x.toNat
  | 3 => x.toNat < y.toNat
  | 4 => (x - y).toInt < 0
  | 5 => 0 ≤ (x - y).toInt
  | 6 => (x - y).toInt ≠ x.toInt - y.toInt
  | 7 => (x - y).toInt = x.toInt - y.toInt
  | 8 => y.toNat < x.toNat
  | 9 => x.toNat ≤ y.toNat
  | 10 => y.toInt ≤ x.toInt
  | 11 => x.toInt < y.toInt
  | 12 => y.toInt < x.toInt
  | 13 => x.toInt ≤ y.toInt
  | _ => true

section comparisons

variable {w : Nat} (x y : BitVec w)

/-- The flags of a difference, over the integers. -/
theorem sub_integers (hw : 0 < w) : (sub x y).2 = ⟨decide ((x - y).toInt < 0), decide (x.toNat = y.toNat),
    decide (y.toNat ≤ x.toNat), decide ((x - y).toInt ≠ x.toInt - y.toInt)⟩ := by
  have hn : (sub x y).2.n = (x - y).msb := congrArg BitVec.msb (sub_result x y)
  have hz : (sub x y).2.z = decide (x - y = 0) := by rw [← sub_result]; rfl
  have hc := sub_carry_out x y
  have hv : (sub x y).2.v = decide ((x - y).toInt ≠ x.toInt + (~~~ y).toInt + 1) := by
    rw [← sub_result]
    rfl
  have hnot : x.toInt + (~~~ y).toInt + 1 = x.toInt - y.toInt := by
    have hy : (~~~ y).toNat = 2 ^ w - 1 - y.toNat := BitVec.toNat_not
    have heven : 2 ^ w = 2 * 2 ^ (w - 1) := by
      rw [← Nat.pow_succ', Nat.succ_eq_add_one, Nat.sub_add_cancel hw]
    rcases toInt_cases y with ⟨-, hby, hiy⟩ | ⟨-, hby, hiy⟩ <;>
      rcases toInt_cases (~~~ y) with ⟨-, hbn, hin⟩ | ⟨-, hbn, hin⟩ <;> omega
  have hzero : x - y = 0 ↔ x.toNat = y.toNat := by
    rw [BitVec.toNat_inj]
    exact sub_eq_zero
  ext
  · rw [hn, BitVec.msb_eq_toInt]
  · simp only [hz, hzero]
  · simp only [hc, BitVec.le_def]
  · rw [hv, hnot]

/-- The sign and the overflow of a difference, together. -/
theorem sub_signed : ((x - y).toInt < 0 ↔ (x - y).toInt ≠ x.toInt - y.toInt) ↔
    y.toInt ≤ x.toInt := by
  have hx := x.isLt
  have hy := y.isLt
  have hsub : (x - y).toNat = (2 ^ w - y.toNat + x.toNat) % 2 ^ w := BitVec.toNat_sub x y
  have hmod : y.toNat ≤ x.toNat ∧ (x - y).toNat = x.toNat - y.toNat ∨
      x.toNat < y.toNat ∧ (x - y).toNat = 2 ^ w + x.toNat - y.toNat := by
    by_cases h : y.toNat ≤ x.toNat
    · rw [Nat.mod_eq_sub_mod (by omega), Nat.mod_eq_of_lt (by omega)] at hsub
      omega
    · rw [Nat.mod_eq_of_lt (by omega)] at hsub
      omega
  rcases toInt_cases x with ⟨-, hbx, hix⟩ | ⟨-, hbx, hix⟩ <;>
    rcases toInt_cases y with ⟨-, hby, hiy⟩ | ⟨-, hby, hiy⟩ <;>
      rcases toInt_cases (x - y) with ⟨-, hbr, hir⟩ | ⟨-, hbr, hir⟩ <;> omega

/-- The flags of a difference tell how its operands compare. -/
theorem holds_sub (hw : 0 < w) (cond : BitVec 4) :
    (sub x y).2.holds cond = compares cond x y := by
  have hsigned := sub_signed x y
  have hne : x.toInt = y.toInt ↔ x.toNat = y.toNat := by rw [BitVec.toInt_inj, BitVec.toNat_inj]
  rw [sub_integers x y hw]
  unfold compares flags.holds
  generalize (x - y).toInt = r at *
  generalize x.toInt = xi at *
  generalize y.toInt = yi at *
  have hsign : (decide (r < 0) = !decide (r = xi - yi)) ↔ yi ≤ xi := by
    rw [← hsigned, ← decide_not, decide_eq_decide]
  obtain ⟨k, rfl⟩ : ∃ k : Fin 16, cond = BitVec.ofFin k := ⟨cond.toFin, rfl⟩
  rw [Bool.eq_iff_iff]
  fin_cases k <;> simp [hsign] <;> omega

end comparisons

/-! ## The flags of a status word -/

/-- A status word with these flags in its upper four bits. -/
def flags.word (f : flags) (old : BitVec 32) : BitVec 32 :=
  BitVec.ofBool f.n ++ BitVec.ofBool f.z ++ BitVec.ofBool f.c ++ BitVec.ofBool f.v ++
    old.extractLsb' 0 28

section status

/-- Two ways to look at one bit of a word. -/
theorem and_bit (x : BitVec 32) (i : Nat) : x &&& BitVec.twoPow 32 i ≠ 0 ↔ x.getLsbD i = true := by
  rw [BitVec.and_twoPow]
  by_cases h : x.getLsbD i
  · have hi := BitVec.lt_of_getLsbD h
    simp only [h, if_true, iff_true]
    intro h0
    have := congrArg (fun y => y.getLsbD i) h0
    simp [hi] at this
  · simp [h]

theorem shift_bit (x : BitVec 32) (i : Nat) : (x >>> i) &&& 1#32 = if x.getLsbD i then 1#32 else 0#32 := by
  rw [BitVec.and_one_eq_setWidth_ofBool_getLsbD]
  cases h : x.getLsbD i <;> simp [h]

theorem getLsbD_word (f : flags) (old : BitVec 32) (i : Nat) : (f.word old).getLsbD i =
    if i < 28 then old.getLsbD i
    else if i = 28 then f.v else if i = 29 then f.c else if i = 30 then f.z
    else if i = 31 then f.n else false := by
  unfold flags.word
  simp only [BitVec.getLsbD_append, BitVec.getLsbD_ofBool, BitVec.getLsbD_extractLsb']
  split_ifs <;> first | omega | simp_all <;> omega

theorem getLsbD_word_flags (f : flags) (old : BitVec 32) : (f.word old).getLsbD 31 = f.n ∧
    (f.word old).getLsbD 30 = f.z ∧ (f.word old).getLsbD 29 = f.c ∧ (f.word old).getLsbD 28 = f.v := by
  simp only [getLsbD_word]
  exact ⟨rfl, rfl, rfl, rfl⟩

/-- The value of a single bit. -/
theorem getLsbD_bit (b : Bool) (k i : Nat) :
    (if b then BitVec.twoPow 32 k else 0#32).getLsbD i =
      (b && (decide (k < 32) && decide (k = i))) := by
  cases b <;> simp

/-- The word that the four bits and what is left of the old word make. -/
theorem or_bits (n z c v : Bool) (old : BitVec 32) :
    (if n then 0x80000000#32 else 0#32) ||| (if z then 0x40000000#32 else 0#32) |||
      (if c then 0x20000000#32 else 0#32) ||| (if v then 0x10000000#32 else 0#32) |||
      (old &&& 0x0fffffff#32) = flags.word ⟨n, z, c, v⟩ old := by
  apply BitVec.eq_of_getLsbD_eq
  intro i hi
  have hmask : (0x0fffffff#32).getLsbD i = decide (i < 28) := by
    have hpow : (0x0fffffff#32) = BitVec.ofNat 32 (2 ^ 28 - 1) := rfl
    rw [hpow, BitVec.getLsbD_ofNat, Nat.testBit_two_pow_sub_one]
    simp [hi]
  have hn := getLsbD_bit n 31 i
  have hz := getLsbD_bit z 30 i
  have hc := getLsbD_bit c 29 i
  have hv := getLsbD_bit v 28 i
  simp only [BitVec.getLsbD_or, BitVec.getLsbD_and, hmask, getLsbD_word]
  rw [show (0x80000000#32) = BitVec.twoPow 32 31 from rfl, hn,
    show (0x40000000#32) = BitVec.twoPow 32 30 from rfl, hz,
    show (0x20000000#32) = BitVec.twoPow 32 29 from rfl, hc,
    show (0x10000000#32) = BitVec.twoPow 32 28 from rfl, hv]
  rcases Nat.lt_or_ge i 28 with h | h
  · simp [h, show ¬ 31 = i by omega, show ¬ 30 = i by omega, show ¬ 29 = i by omega,
      show ¬ 28 = i by omega]
  · obtain rfl | rfl | rfl | rfl : i = 28 ∨ i = 29 ∨ i = 30 ∨ i = 31 := by omega
    all_goals simp

/-- The sign bit, moved to a place of the status word. -/
theorem sign_bit_32 (x : BitVec 32) :
    (x &&& 0x80000000#32 = if x.msb then 0x80000000#32 else 0#32) ∧
    ((x >>> 3) &&& 0x10000000#32 = if x.msb then 0x10000000#32 else 0#32) := by
  have hmsb : x.msb = x.getLsbD 31 := BitVec.msb_eq_getLsbD_last x
  have h31 := BitVec.and_twoPow x 31
  have h28 := BitVec.and_twoPow (x >>> 3) 28
  rw [BitVec.getLsbD_ushiftRight] at h28
  rw [hmsb]
  exact ⟨h31, h28⟩

theorem sign_bit_64 (x : BitVec 64) :
    (((x &&& 0x8000000000000000#64) >>> 32).setWidth 32 = if x.msb then 0x80000000#32 else 0#32) ∧
    (((x >>> 35) &&& 0x10000000#64).setWidth 32 = if x.msb then 0x10000000#32 else 0#32) := by
  have hmsb : x.msb = x.getLsbD 63 := BitVec.msb_eq_getLsbD_last x
  have h63 := BitVec.and_twoPow x 63
  have h28 := BitVec.and_twoPow (x >>> 35) 28
  rw [BitVec.getLsbD_ushiftRight] at h28
  rw [hmsb, show (0x8000000000000000#64) = BitVec.twoPow 64 63 from rfl, h63,
    show (0x10000000#64) = BitVec.twoPow 64 28 from rfl, h28]
  cases x.getLsbD 63 <;> decide

section parts

variable (c : Prop) [Decidable c] (old : BitVec 32)

/-- The word that a program makes of a result, a carry and a word with the overflow in its
    sign. -/
theorem word_32 (r o : BitVec 32) :
    (r &&& 0x80000000#32) ||| (if r = 0 then 0x40000000#32 else 0#32) |||
      (if c then 0x20000000#32 else 0#32) ||| ((o >>> 3) &&& 0x10000000#32) |||
      (old &&& 0x0fffffff#32) = flags.word ⟨r.msb, r = 0, c, o.msb⟩ old := by
  rw [(sign_bit_32 r).1, (sign_bit_32 o).2, ← or_bits]
  simp only [decide_eq_true_eq]

theorem word_64 (r o : BitVec 64) :
    ((r &&& 0x8000000000000000#64) >>> 32).setWidth 32 |||
      (if r = 0 then 0x40000000#32 else 0#32) ||| (if c then 0x20000000#32 else 0#32) |||
      ((o >>> 35) &&& 0x10000000#64).setWidth 32 ||| (old &&& 0x0fffffff#32) =
      flags.word ⟨r.msb, r = 0, c, o.msb⟩ old := by
  rw [(sign_bit_64 r).1, (sign_bit_64 o).2, ← or_bits]
  simp only [decide_eq_true_eq]

/-- The word of a result alone, with the carry and the overflow as they are. -/
theorem word_logical_32 (r : BitVec 32) (c v : Bool) :
    (r &&& 0x80000000#32) ||| (if r = 0 then 0x40000000#32 else 0#32) |||
      (if c then 0x20000000#32 else 0#32) ||| (if v then 0x10000000#32 else 0#32) |||
      (old &&& 0x0fffffff#32) = (logical r c v).word old := by
  rw [(sign_bit_32 r).1, logical, ← or_bits]
  simp only [decide_eq_true_eq]

theorem word_logical_64 (r : BitVec 64) (c v : Bool) :
    ((r &&& 0x8000000000000000#64) >>> 32).setWidth 32 |||
      (if r = 0 then 0x40000000#32 else 0#32) ||| (if c then 0x20000000#32 else 0#32) |||
      (if v then 0x10000000#32 else 0#32) ||| (old &&& 0x0fffffff#32) = (logical r c v).word old := by
  rw [(sign_bit_64 r).1, logical, ← or_bits]
  simp only [decide_eq_true_eq]

end parts

/-- The carry of a status word, as programs look at it. -/
theorem carry_in_32 (old : BitVec 32) :
    (old >>> 29) &&& 1#32 = BitVec.ofNat 32 (old.getLsbD 29).toNat := by
  rw [shift_bit]
  cases old.getLsbD 29 <;> rfl

/-- Two comparisons, of which the carry that comes in chooses one. -/
theorem carry_choice {α : Type} (b : Bool) (p q : Prop) [Decidable p] [Decidable q] (x y : α) :
    (if BitVec.ofNat 32 b.toNat ≠ 0 then if p then x else y else if q then x else y) =
      if (if b then p else q) then x else y := by
  cases b <;> simp

end status

end AddWithCarry
