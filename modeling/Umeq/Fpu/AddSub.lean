import Umeq.Fpu.Operands

/-! # `float32_add`, `float32_sub` and the ones of `float64`

    The operand with the smaller exponent is shifted down, with a sticky bit, and added to the other
    one or subtracted from it. A difference has as many leading zeros as the operands agree in; it
    is shifted up again, and by more than one bit only where the sticky bit has seen nothing.

    * `addFloatSigs_delivered`, `subFloatSigs_delivered`: sums and differences of magnitudes.
    * `float_add_delivered`, `float_sub_delivered`: the sum and the difference, rounded.
-/

namespace Umeq.Fpu

open Rounding

variable {F : float_format} {st : float_status} {a b : ℕ}

/-! ## The functions -/

/-- The end of `addFloatSigs`: significands that are aligned, one without its leading bit. -/
def addAligned (F : float_format) (zSign : Bool) (zExp : ℤ) (aSig bSig : ℕ) (st : float_status) :
    ℕ × float_status :=
  let aSig := aSig ||| 2 ^ (F.frac_bits + F.guard - 1)
  let zSig := ((aSig + bSig) <<< 1) % 2 ^ F.width
  if zSig < 2 ^ (F.width - 1) then roundAndPackFloat F zSign (zExp - 1) zSig st
  else roundAndPackFloat F zSign zExp ((aSig + bSig) % 2 ^ F.width) st

def addFloatSigs (F : float_format) (a b : ℕ) (zSign : Bool) (st : float_status) : ℕ × float_status :=
  let aExp := extractFloatExp F a
  let bExp := extractFloatExp F b
  let aSig := (extractFloatFrac F a <<< (F.guard - 1)) % 2 ^ F.width
  let bSig := (extractFloatFrac F b <<< (F.guard - 1)) % 2 ^ F.width
  if bExp < aExp then
    if aExp = F.exp_max then if aSig ≠ 0 then propagateFloatNaN F a b st else (a, st)
    else
      let expDiff := if bExp = 0 then aExp - bExp - 1 else aExp - bExp
      let bSig := if bExp = 0 then bSig else bSig ||| 2 ^ (F.frac_bits + F.guard - 1)
      addAligned F zSign aExp aSig (shiftRightJamming F.width bSig expDiff) st
  else if aExp < bExp then
    if bExp = F.exp_max then
      if bSig ≠ 0 then propagateFloatNaN F a b st else (packFloat F zSign F.exp_max 0, st)
    else
      let expDiff := if aExp = 0 then bExp - aExp - 1 else bExp - aExp
      let aSig := if aExp = 0 then aSig else aSig ||| 2 ^ (F.frac_bits + F.guard - 1)
      addAligned F zSign bExp (shiftRightJamming F.width aSig expDiff) bSig st
  else if aExp = F.exp_max then
    if aSig ||| bSig ≠ 0 then propagateFloatNaN F a b st else (a, st)
  else if aExp = 0 then
    if st.flush_to_zero then
      (packFloat F zSign 0 0, if aSig ||| bSig ≠ 0 then float_raise float_flag_output_denormal st else st)
    else (packFloat F zSign 0 (((aSig + bSig) % 2 ^ F.width) >>> (F.guard - 1)), st)
  else roundAndPackFloat F zSign aExp ((2 ^ (F.width - 2) + aSig + bSig) % 2 ^ F.width) st

/-- The end of `subFloatSigs`. -/
def subAligned (F : float_format) (zSign : Bool) (zExp : ℤ) (aSig bSig : ℕ) (st : float_status) :
    ℕ × float_status :=
  normalizeRoundAndPackFloat F zSign (zExp - 1) ((aSig + 2 ^ F.width - bSig) % 2 ^ F.width) st

def subFloatSigs (F : float_format) (a b : ℕ) (zSign : Bool) (st : float_status) : ℕ × float_status :=
  let aExp := extractFloatExp F a
  let bExp := extractFloatExp F b
  let aSig := (extractFloatFrac F a <<< F.guard) % 2 ^ F.width
  let bSig := (extractFloatFrac F b <<< F.guard) % 2 ^ F.width
  if bExp < aExp then
    if aExp = F.exp_max then if aSig ≠ 0 then propagateFloatNaN F a b st else (a, st)
    else
      let expDiff := if bExp = 0 then aExp - bExp - 1 else aExp - bExp
      let bSig := if bExp = 0 then bSig else bSig ||| 2 ^ (F.width - 2)
      subAligned F zSign aExp (aSig ||| 2 ^ (F.width - 2)) (shiftRightJamming F.width bSig expDiff) st
  else if aExp < bExp then
    if bExp = F.exp_max then
      if bSig ≠ 0 then propagateFloatNaN F a b st else (packFloat F (!zSign) F.exp_max 0, st)
    else
      let expDiff := if aExp = 0 then bExp - aExp - 1 else bExp - aExp
      let aSig := if aExp = 0 then aSig else aSig ||| 2 ^ (F.width - 2)
      subAligned F (!zSign) bExp (bSig ||| 2 ^ (F.width - 2)) (shiftRightJamming F.width aSig expDiff) st
  else if aExp = F.exp_max then
    if aSig ||| bSig ≠ 0 then propagateFloatNaN F a b st
    else (float_default_nan F, float_raise float_flag_invalid st)
  else
    let zExp := if aExp = 0 then 1 else aExp
    if bSig < aSig then subAligned F zSign zExp aSig bSig st
    else if aSig < bSig then subAligned F (!zSign) zExp bSig aSig st
    else (packFloat F (st.float_rounding_mode = .down) 0 0, st)

def addSquashed (F : float_format) (a b : ℕ) (st : float_status) : ℕ × float_status :=
  if extractFloatSign F a = extractFloatSign F b then addFloatSigs F a b (extractFloatSign F a) st
  else subFloatSigs F a b (extractFloatSign F a) st

def float_add (F : float_format) (a b : ℕ) (st : float_status) : ℕ × float_status :=
  let pa := float_squash_input_denormal F a st
  let pb := float_squash_input_denormal F b pa.2
  addSquashed F pa.1 pb.1 pb.2

def subSquashed (F : float_format) (a b : ℕ) (st : float_status) : ℕ × float_status :=
  if extractFloatSign F a = extractFloatSign F b then subFloatSigs F a b (extractFloatSign F a) st
  else addFloatSigs F a b (extractFloatSign F a) st

def float_sub (F : float_format) (a b : ℕ) (st : float_status) : ℕ × float_status :=
  let pa := float_squash_input_denormal F a st
  let pb := float_squash_input_denormal F b pa.2
  subSquashed F pa.1 pb.1 pb.2

def float32_add (a b : ℕ) (st : float_status) : ℕ × float_status := float_add .float32 a b st

def float64_add (a b : ℕ) (st : float_status) : ℕ × float_status := float_add .float64 a b st

def float32_sub (a b : ℕ) (st : float_status) : ℕ × float_status := float_sub .float32 a b st

def float64_sub (a b : ℕ) (st : float_status) : ℕ × float_status := float_sub .float64 a b st

/-! ## Alignment -/

/-- The exponent that counts: subnormal numbers have the one of the smallest normal numbers. -/
def effective (F : float_format) (a : ℕ) : ℕ := if extractFloatExp F a = 0 then 1 else extractFloatExp F a

theorem magnitude_effective (F : float_format) (a : ℕ) :
    magnitude F a = significand F a * 2 ^ ((effective F a : ℤ) - 1 + F.emin) := by
  rw [magnitude, scale, effective]
  split_ifs <;> simp

theorem significand_lt : significand F a < 2 ^ F.precision := by
  have := frac_lt (F := F) (a := a)
  rw [float_format.precision, pow_succ, significand]
  split_ifs <;> omega

theorem significand_lead (h : extractFloatExp F a ≠ 0) : 2 ^ F.frac_bits ≤ significand F a := by
  rw [significand, if_neg h]
  omega

theorem shifted_frac {k : ℕ} (hk : k ≤ F.guard) :
    (extractFloatFrac F a <<< k) % 2 ^ F.width = extractFloatFrac F a * 2 ^ k := by
  have hlt : extractFloatFrac F a * 2 ^ k < 2 ^ F.width := by
    calc extractFloatFrac F a * 2 ^ k < 2 ^ F.frac_bits * 2 ^ k :=
          Nat.mul_lt_mul_of_pos_right frac_lt (by positivity)
      _ = 2 ^ (F.frac_bits + k) := (pow_add _ _ _).symm
      _ ≤ 2 ^ F.width := Nat.pow_le_pow_right (by norm_num) (by have := F.guard_eq; omega)
  rw [Nat.shiftLeft_eq, Nat.mod_eq_of_lt hlt]

theorem shifted_lead (F : float_format) (a k : ℕ) :
    extractFloatFrac F a * 2 ^ k ||| 2 ^ (F.frac_bits + k) = (extractFloatFrac F a + 2 ^ F.frac_bits) * 2 ^ k := by
  have hlt : extractFloatFrac F a * 2 ^ k < 2 ^ (F.frac_bits + k) := by
    rw [pow_add]
    exact Nat.mul_lt_mul_of_pos_right frac_lt (by positivity)
  rw [Nat.or_two_pow_eq_add_of_lt hlt, Nat.add_mul, pow_add]

/-- The significand in its place, with the leading bit of the normal numbers. -/
theorem shifted_significand {k : ℕ} (hk : k ≤ F.guard) :
    (if extractFloatExp F a = 0 then (extractFloatFrac F a <<< k) % 2 ^ F.width
      else (extractFloatFrac F a <<< k) % 2 ^ F.width ||| 2 ^ (F.frac_bits + k)) = significand F a * 2 ^ k := by
  rw [shifted_frac hk, shifted_lead, significand]
  split_ifs
  · rw [Nat.add_zero]
  · rfl

theorem shifted_significand_of_ne {k : ℕ} (hk : k ≤ F.guard) (h : extractFloatExp F a ≠ 0) :
    (extractFloatFrac F a <<< k) % 2 ^ F.width ||| 2 ^ (F.frac_bits + k) = significand F a * 2 ^ k := by
  rw [← shifted_significand hk, if_neg h]

/-- How far the operand with the smaller exponent is shifted. -/
theorem shift_count (h : extractFloatExp F b < extractFloatExp F a) :
    (if extractFloatExp F b = 0 then extractFloatExp F a - extractFloatExp F b - 1
      else extractFloatExp F a - extractFloatExp F b) = effective F a - effective F b ∧
      effective F b ≤ effective F a := by
  unfold effective
  split_ifs <;> omega

/-- The two magnitudes, in units of the larger exponent. -/
theorem magnitude_shifted (h : effective F b ≤ effective F a) : magnitude F b =
    significand F b / 2 ^ (effective F a - effective F b) * 2 ^ ((effective F a : ℤ) - 1 + F.emin) := by
  obtain ⟨d, hd⟩ := Nat.exists_eq_add_of_le h
  rw [magnitude_effective, hd, Nat.add_sub_cancel_left, Nat.cast_add,
    show (effective F b + d : ℤ) - 1 + F.emin = (effective F b - 1 + F.emin) + d by ring]
  generalize (effective F b : ℤ) - 1 + F.emin = u
  rw [zpow_add₀ (by norm_num), zpow_natCast]
  field_simp

theorem effective_lt : effective F a < 2 ^ 11 := by
  have hmax : F.exp_max < 2 ^ 11 := by cases F <;> decide
  have := exp_le (F := F) (a := a)
  unfold effective
  split_ifs <;> omega

theorem effective_pos : 1 ≤ effective F a := by
  unfold effective
  split_ifs <;> omega

/-! ## Sums of magnitudes -/

/-- The two places of the leading bit. -/
theorem lead_place (F : float_format) : F.frac_bits + F.guard - 1 = F.frac_bits + (F.guard - 1) ∧
    F.width - 2 = F.frac_bits + F.guard ∧ F.width - 2 = F.precision + (F.guard - 1) := by
  cases F <;> decide

theorem addAligned_delivered {zSign : Bool} {A s d E aSig bSig : ℕ} (hA : 2 ^ F.frac_bits ≤ A)
    (hA' : A < 2 ^ F.precision) (hs : s < 2 ^ F.precision) (hE : E < 2 ^ 11)
    (hsum : (aSig ||| 2 ^ (F.frac_bits + F.guard - 1)) + bSig =
      A * 2 ^ (F.guard - 1) + jam (s * 2 ^ (F.guard - 1)) d)
    (htiny : st.float_detect_tininess = .float_tininess_before_rounding) :
    Delivered F st zSign (signed zSign ((A + s / 2 ^ d) * 2 ^ ((E : ℤ) - 1 + F.emin)))
      (addAligned F zSign E aSig bSig st) := by
  obtain ⟨-, -, hplace⟩ := lead_place F
  have htop := width_split_top F
  have hquarter : 2 ^ (F.width - 1) = 2 * 2 ^ (F.width - 2) := by cases F <;> rfl
  have heighth : 2 ^ (F.width - 2) = 2 * (2 ^ F.frac_bits * 2 ^ (F.guard - 1)) := by cases F <;> rfl
  have hlow : 2 ^ F.frac_bits * 2 ^ (F.guard - 1) ≤ A * 2 ^ (F.guard - 1) := Nat.mul_le_mul_right _ hA
  have hfull : 2 ^ (F.width - 2) = 2 ^ F.precision * 2 ^ (F.guard - 1) := by rw [hplace, pow_add]
  have hhigh : A * 2 ^ (F.guard - 1) < 2 ^ (F.width - 2) := by
    rw [hfull]
    exact Nat.mul_lt_mul_of_pos_right hA' (by positivity)
  have hjam : jam (s * 2 ^ (F.guard - 1)) d < 2 ^ (F.width - 2) := by
    refine jam_lt ?_ (by cases F <;> rfl)
    calc s * 2 ^ (F.guard - 1) < 2 ^ F.precision * 2 ^ (F.guard - 1) :=
          Nat.mul_lt_mul_of_pos_right hs (by positivity)
      _ = 2 ^ (F.width - 2) := hfull.symm
      _ ≤ 2 ^ (F.width - 2) * 2 ^ d := Nat.le_mul_of_pos_right _ (by positivity)
  -- the sum stands for the exact one
  have hcell : SameCell 2 ((A * 2 ^ (F.guard - 1) + jam (s * 2 ^ (F.guard - 1)) d : ℕ) : ℚ)
      ((A + s / 2 ^ d) * 2 ^ (F.guard - 1)) := by
    have h := (sameCell_jam (s * 2 ^ (F.guard - 1)) d).add_mul (A * 2 ^ (F.guard - 2))
    have hpow : (2 : ℚ) ^ (F.guard - 2) * 2 = 2 ^ (F.guard - 1) := by cases F <;> norm_num [float_format.guard]
    push_cast at h ⊢
    rw [mul_assoc, hpow] at h
    convert h using 1
    ring
  have hT : 2 ^ F.frac_bits * 2 ^ (F.guard - 1) ≤ A * 2 ^ (F.guard - 1) + jam (s * 2 ^ (F.guard - 1)) d := by
    omega
  have hT' : A * 2 ^ (F.guard - 1) + jam (s * 2 ^ (F.guard - 1)) d < 2 ^ (F.width - 1) := by omega
  unfold addAligned
  dsimp only
  rw [hsum]
  generalize A * 2 ^ (F.guard - 1) + jam (s * 2 ^ (F.guard - 1)) d = T at *
  rw [Nat.shiftLeft_eq, pow_one, Nat.mod_eq_of_lt (show T * 2 < 2 ^ F.width by omega),
    Nat.mod_eq_of_lt (show T < 2 ^ F.width by omega)]
  have hhalf : (2 : ℚ) ^ F.guard = 2 ^ (F.guard - 1) * 2 := by
    rw [mul_comm]
    exact_mod_cast two_pow_pred F.guard_pos
  split_ifs with hshift
  · have hnorm : Normalized F (T * 2) ((A + s / 2 ^ d) * 2 ^ (F.guard - 1) * 2) := by
      refine ⟨by omega, by omega, ?_⟩
      have h := hcell.scale (c := 2) (by norm_num)
      rw [← pow_two] at h
      push_cast
      exact h.pow_le (by cases F <;> decide)
    convert roundAndPack_delivered zSign ((E : ℤ) - 1) hnorm (by omega) (by omega) htiny
      using 2
    rw [hhalf]
    field_simp
  · have hnorm : Normalized F T ((A + s / 2 ^ d) * 2 ^ (F.guard - 1)) := by
      refine ⟨by omega, by omega, ?_⟩
      rw [← pow_one (2 : ℚ)] at hcell
      simpa only [pow_one] using hcell.pow_le (j := F.guard - 1) (by cases F <;> decide)
    convert roundAndPack_delivered zSign (E : ℤ) hnorm (by omega) (by omega) htiny
      using 2
    rw [hhalf, show (E : ℤ) + F.emin = ((E : ℤ) - 1 + F.emin) + 1 by ring, zpow_add_one₀ (by norm_num)]
    field_simp

/-- Operands that are squashed whenever results are flushed. -/
def Squashed (F : float_format) (st : float_status) (a : ℕ) : Prop :=
  st.flush_to_zero = true → extractFloatExp F a = 0 → extractFloatFrac F a = 0

/-- Two subnormal numbers are added as they are: even a carry leaves a word of the format. -/
theorem addSubnormal_delivered {zSign : Bool} (hza : extractFloatExp F a = 0) (hzb : extractFloatExp F b = 0)
    (hkept : st.flush_to_zero = false) :
    Delivered F st zSign (signed zSign (magnitude F a + magnitude F b))
      (packFloat F zSign 0 (((extractFloatFrac F a * 2 ^ (F.guard - 1) + extractFloatFrac F b * 2 ^ (F.guard - 1))
        % 2 ^ F.width) >>> (F.guard - 1)), st) := by
  have hfa := frac_lt (F := F) (a := a)
  have hfb := frac_lt (F := F) (a := b)
  have hP : 2 ^ F.precision = 2 * 2 ^ F.frac_bits := by rw [float_format.precision, pow_succ']
  have hroom : 0 * 2 ^ F.frac_bits + (extractFloatFrac F a + extractFloatFrac F b)
      < F.exp_max * 2 ^ F.frac_bits := by
    have : 2 * 2 ^ F.frac_bits < F.exp_max * 2 ^ F.frac_bits := by cases F <;> decide
    omega
  have hword : ((extractFloatFrac F a * 2 ^ (F.guard - 1) + extractFloatFrac F b * 2 ^ (F.guard - 1))
      % 2 ^ F.width) >>> (F.guard - 1) = extractFloatFrac F a + extractFloatFrac F b := by
    rw [← Nat.add_mul, Nat.mod_eq_of_lt, Nat.shiftRight_eq_div_pow, Nat.mul_div_cancel _ (by positivity)]
    calc (extractFloatFrac F a + extractFloatFrac F b) * 2 ^ (F.guard - 1)
        < 2 ^ F.precision * 2 ^ (F.guard - 1) := Nat.mul_lt_mul_of_pos_right (by omega) (by positivity)
      _ ≤ 2 ^ F.width := by cases F <;> decide
  obtain ⟨hfinite, hsign, hvalue⟩ := pack_spec zSign (Or.inr rfl) (by omega) hroom
  have hsum : signed zSign (((extractFloatFrac F a + extractFloatFrac F b : ℕ) : ℚ) * 2 ^ (((0 : ℕ) : ℤ) + F.emin))
      = signed zSign (magnitude F a + magnitude F b) := by
    rw [magnitude, magnitude, significand, significand, scale, scale, if_pos hza, if_pos hza, if_pos hzb, if_pos hzb]
    push_cast
    congr 1
    ring
  rw [hsum] at hvalue
  rw [hword]
  have h := delivered_exact st hfinite (fun hc => by rw [hkept] at hc; exact Bool.false_ne_true hc.1)
  rwa [hsign, hvalue] at h

theorem addFloatSigs_delivered {zSign : Bool} (ha : Finite F a) (hb : Finite F b)
    (hsqa : Squashed F st a) (hsqb : Squashed F st b)
    (htiny : st.float_detect_tininess = .float_tininess_before_rounding) :
    Delivered F st zSign (signed zSign (magnitude F a + magnitude F b)) (addFloatSigs F a b zSign st) := by
  obtain ⟨hplace, hplace', -⟩ := lead_place F
  have hg : F.guard - 1 ≤ F.guard := Nat.sub_le _ _
  have hsa := shifted_significand (a := a) hg
  have hsb := shifted_significand (a := b) hg
  have htop : 2 ^ F.width = 4 * (2 ^ F.frac_bits * 2 ^ F.guard) := by cases F <;> rfl
  have hPg : 2 ^ F.precision * 2 ^ (F.guard - 1) = 2 ^ F.frac_bits * 2 ^ F.guard := by cases F <;> rfl
  have hlow : ∀ c, significand F c * 2 ^ (F.guard - 1) < 2 ^ F.width := by
    intro c
    have := Nat.mul_lt_mul_of_pos_right (significand_lt (F := F) (a := c)) (show 0 < 2 ^ (F.guard - 1) by positivity)
    omega
  unfold addFloatSigs
  dsimp only
  rcases Nat.lt_trichotomy (extractFloatExp F b) (extractFloatExp F a) with hlt | heq | hgt
  · -- the first operand is the larger one
    obtain ⟨hcount, hle⟩ := shift_count hlt
    rw [if_pos hlt, if_neg ha.2, hcount, hplace, hsb, shiftRightJamming_eq (hlow b), magnitude_shifted hle,
      magnitude_effective F a, ← add_mul]
    have heff : (extractFloatExp F a : ℤ) = effective F a := by rw [effective, if_neg (by omega)]
    rw [heff]
    refine addAligned_delivered (significand_lead (by omega)) significand_lt significand_lt effective_lt ?_ htiny
    rw [hplace, shifted_significand_of_ne hg (by omega)]
  · rw [if_neg (by omega), if_neg (by omega), if_neg ha.2]
    by_cases hzero : extractFloatExp F a = 0
    · rw [if_pos hzero, shifted_frac hg, shifted_frac hg]
      by_cases hflush : st.flush_to_zero = true
      · -- both are zeros
        have hfa := hsqa hflush hzero
        have hfb := hsqb hflush (heq.trans hzero)
        rw [if_pos hflush, hfa, hfb, magnitude_zero ⟨hzero, hfa⟩, magnitude_zero ⟨heq.trans hzero, hfb⟩,
          add_zero, signed_zero, Nat.zero_mul, Nat.or_self, if_neg (not_not.mpr rfl)]
        exact delivered_zero _ _
      · rw [if_neg hflush]
        exact addSubnormal_delivered hzero (heq.trans hzero) (Bool.eq_false_iff.mpr hflush)
    · -- two leading bits make a carry
      rw [if_neg hzero, shifted_frac hg, shifted_frac hg]
      have hfa := frac_lt (F := F) (a := a)
      have hfb := frac_lt (F := F) (a := b)
      have hS : 2 ^ (F.width - 2) + extractFloatFrac F a * 2 ^ (F.guard - 1) +
          extractFloatFrac F b * 2 ^ (F.guard - 1) = (significand F a + significand F b) * 2 ^ (F.guard - 1) := by
        rw [significand, significand, if_neg hzero, if_neg (by omega), hplace']
        have : 2 ^ (F.frac_bits + F.guard) = 2 * (2 ^ F.frac_bits * 2 ^ (F.guard - 1)) := by cases F <;> rfl
        rw [this]
        ring
      have hSlow : 2 ^ (F.width - 2) ≤ (significand F a + significand F b) * 2 ^ (F.guard - 1) := by
        rw [← hS]
        omega
      have hShigh : (significand F a + significand F b) * 2 ^ (F.guard - 1) < 2 ^ (F.width - 1) := by
        have h1 := Nat.mul_lt_mul_of_pos_right (significand_lt (F := F) (a := a))
          (show 0 < 2 ^ (F.guard - 1) by positivity)
        have h2 := Nat.mul_lt_mul_of_pos_right (significand_lt (F := F) (a := b))
          (show 0 < 2 ^ (F.guard - 1) by positivity)
        have h3 : 2 ^ (F.width - 1) = 2 * (2 ^ F.frac_bits * 2 ^ F.guard) := by cases F <;> rfl
        rw [Nat.add_mul]
        omega
      rw [hS, Nat.mod_eq_of_lt (by have := width_split_top F; omega)]
      have hnorm : Normalized F ((significand F a + significand F b) * 2 ^ (F.guard - 1))
          (((significand F a + significand F b) * 2 ^ (F.guard - 1) : ℕ) : ℚ) :=
        ⟨hSlow, hShigh, SameCell.refl _ _⟩
      have hle := effective_lt (F := F) (a := a)
      have heffa : effective F a = extractFloatExp F a := by rw [effective, if_neg hzero]
      have heffb : effective F b = extractFloatExp F a := by rw [effective, if_neg (by omega), heq]
      rw [heffa] at hle
      convert roundAndPack_delivered zSign (extractFloatExp F a : ℤ) hnorm (by omega) (by omega)
        htiny using 2
      have hhalf : (2 : ℚ) ^ F.guard = 2 ^ (F.guard - 1) * 2 := by
        rw [mul_comm]
        exact_mod_cast two_pow_pred F.guard_pos
      rw [magnitude_effective, magnitude_effective, heffa, heffb, hhalf,
        show (extractFloatExp F a : ℤ) + F.emin = ((extractFloatExp F a : ℤ) - 1 + F.emin) + 1 by ring,
        zpow_add_one₀ (by norm_num)]
      push_cast
      field_simp
  · obtain ⟨hcount, hle⟩ := shift_count hgt
    rw [if_neg (by omega), if_pos hgt, if_neg hb.2, hcount, hplace, hsa, shiftRightJamming_eq (hlow a),
      magnitude_shifted hle, magnitude_effective F b, add_comm, ← add_mul]
    have heff : (extractFloatExp F b : ℤ) = effective F b := by rw [effective, if_neg (by omega)]
    rw [heff]
    refine addAligned_delivered (significand_lead (by omega)) significand_lt significand_lt effective_lt ?_ htiny
    -- the leading bit is set in the other significand, where it is free
    have hfree : jam (significand F a * 2 ^ (F.guard - 1)) (effective F b - effective F a)
        < 2 ^ (F.frac_bits + (F.guard - 1)) := by
      refine jam_lt ?_ (by cases F <;> rfl)
      rw [pow_add, Nat.mul_right_comm]
      refine Nat.mul_lt_mul_of_pos_right ?_ (by positivity)
      by_cases hzero : extractFloatExp F a = 0
      · rw [significand, if_pos hzero]
        exact (frac_lt (F := F) (a := a)).trans_le (Nat.le_mul_of_pos_right _ (by positivity))
      · refine significand_lt.trans_le ?_
        rw [float_format.precision, pow_succ]
        refine Nat.mul_le_mul_left _ (Nat.le_self_pow ?_ 2)
        unfold effective
        rw [if_neg hzero, if_neg (by omega)]
        omega
    rw [hplace, Nat.or_two_pow_eq_add_of_lt hfree, Nat.add_comm, shifted_frac hg, ← Nat.add_assoc, Nat.add_right_comm]
    congr 1
    rw [significand, if_neg (by omega), Nat.add_mul, pow_add]

/-! ## Differences of magnitudes -/

/-- A significand with leading zeros: what the cell is like after they are shifted out decides. -/
theorem normalizeRoundAndPack_delivered (zSign : Bool) (zExp : ℤ) {D : ℕ} {Y : ℚ} (hne : D ≠ 0)
    (hlt : D < 2 ^ (F.width - 1))
    (hcell : ∀ n, 2 ^ (F.width - 2) ≤ D * 2 ^ n → D * 2 ^ n < 2 ^ (F.width - 1) →
      SameCell (2 ^ (F.guard - 1)) ((D * 2 ^ n : ℕ) : ℚ) (Y * 2 ^ n))
    (hlow : -2 ^ 14 ≤ zExp) (hhigh : zExp < 2 ^ 15)
    (htiny : st.float_detect_tininess = .float_tininess_before_rounding) :
    Delivered F st zSign (signed zSign (Y / 2 ^ F.guard * 2 ^ (zExp + F.emin)))
      (normalizeRoundAndPackFloat F zSign zExp D st) := by
  have htop := width_split_top F
  have hhalf : 2 ^ (F.width - 1) = 2 * 2 ^ (F.width - 2) := by cases F <;> rfl
  have hw : F.width ≤ 64 := by cases F <;> decide
  obtain ⟨hclz, hge, hlt'⟩ := countLeadingZeros_spec hne (show D < 2 ^ F.width by omega)
  -- at least one leading zero is there
  have hpos : 1 ≤ countLeadingZeros F.width D := by
    by_contra hcon
    have hzero : countLeadingZeros F.width D = 0 := by omega
    rw [hzero, pow_zero, Nat.mul_one] at hge
    omega
  obtain ⟨n, hn⟩ : ∃ n, countLeadingZeros F.width D = n + 1 := ⟨_, (Nat.sub_add_cancel hpos).symm⟩
  rw [hn, pow_succ, ← Nat.mul_assoc] at hge hlt'
  have hD : 2 ^ (F.width - 2) ≤ D * 2 ^ n := by omega
  have hD' : D * 2 ^ n < 2 ^ (F.width - 1) := by omega
  have hshift : (countLeadingZeros F.width D : ℤ) - 1 = n := by omega
  unfold normalizeRoundAndPackFloat
  simp only [hshift, Int.toNat_natCast, Nat.shiftLeft_eq]
  rw [Nat.mod_eq_of_lt (by omega)]
  convert roundAndPack_delivered zSign (zExp - n) ⟨hD, hD', hcell n hD hD'⟩ (by omega)
    (by omega) htiny using 2
  rw [show zExp + F.emin = (zExp - n + F.emin) + n by ring]
  generalize zExp - n + F.emin = u
  rw [zpow_add₀ (by norm_num), zpow_natCast]
  ring

theorem subAligned_delivered (zSign : Bool) {A s d E aSig bSig : ℕ} (hA' : A < 2 ^ F.precision)
    (hs : s < 2 ^ F.precision) (hE : E < 2 ^ 11) (hlead : d = 0 ∧ s < A ∨ 1 ≤ d ∧ 2 ^ F.frac_bits ≤ A)
    (haSig : aSig = A * 2 ^ F.guard) (hbSig : bSig = jam (s * 2 ^ F.guard) d)
    (htiny : st.float_detect_tininess = .float_tininess_before_rounding) :
    Delivered F st zSign (signed zSign ((A - s / 2 ^ d) * 2 ^ ((E : ℤ) - 1 + F.emin)))
      (subAligned F zSign E aSig bSig st) := by
  have htop := width_split_top F
  have hsplit := width_split F
  have hpos : 0 < 2 ^ F.guard := by positivity
  have hhigh : A * 2 ^ F.guard < 2 ^ (F.width - 1) := by
    rw [hsplit]
    exact Nat.mul_lt_mul_of_pos_right hA' hpos
  -- what is subtracted is smaller
  have hless : bSig < aSig := by
    rw [haSig, hbSig]
    rcases hlead with ⟨rfl, hsA⟩ | ⟨hd, hA⟩
    · rw [jam_of_dvd (Nat.mod_one _), pow_zero, Nat.div_one]
      exact Nat.mul_lt_mul_of_pos_right hsA hpos
    · have hjam : jam (s * 2 ^ F.guard) d < 2 ^ F.frac_bits * 2 ^ F.guard := by
        refine jam_lt ?_ (by cases F <;> rfl)
        calc s * 2 ^ F.guard < 2 ^ F.precision * 2 ^ F.guard := Nat.mul_lt_mul_of_pos_right hs hpos
          _ = 2 ^ F.frac_bits * 2 ^ F.guard * 2 := by rw [float_format.precision, pow_succ]; ring
          _ ≤ 2 ^ F.frac_bits * 2 ^ F.guard * 2 ^ d := Nat.mul_le_mul_left _ (Nat.le_self_pow (by omega) 2)
      exact hjam.trans_le (Nat.mul_le_mul_right _ hA)
  have hdiff : (aSig + 2 ^ F.width - bSig) % 2 ^ F.width = aSig - bSig := by
    rw [show aSig + 2 ^ F.width - bSig = aSig - bSig + 2 ^ F.width by omega, Nat.add_mod_right,
      Nat.mod_eq_of_lt (by omega)]
  unfold subAligned
  rw [hdiff]
  have hY : ((A : ℚ) - s / 2 ^ d) = (A - s / 2 ^ d) * 2 ^ F.guard / 2 ^ F.guard := by field_simp
  rw [hY]
  refine normalizeRoundAndPack_delivered _ _ (by omega) (by omega) ?_ (by omega) (by omega) htiny
  intro n _ hn
  by_cases hexact : s * 2 ^ F.guard % 2 ^ d = 0
  · -- nothing has been shifted out
    have hq : ((jam (s * 2 ^ F.guard) d : ℕ) : ℚ) = s * 2 ^ F.guard / 2 ^ d := by
      rw [jam_of_dvd hexact, Nat.cast_div_charZero (Nat.dvd_of_mod_eq_zero hexact)]
      push_cast
      ring
    have hD : (((aSig - bSig) * 2 ^ n : ℕ) : ℚ) = (A - s / 2 ^ d) * 2 ^ F.guard * 2 ^ n := by
      rw [Nat.cast_mul, Nat.cast_sub hless.le, hbSig, hq, haSig]
      push_cast
      ring
    rw [hD]
    exact SameCell.refl _ _
  · -- the exponents are so far apart that one bit is lost at most
    have hd : F.guard < d := by
      by_contra hcon
      exact hexact (Nat.mod_eq_zero_of_dvd (Dvd.dvd.mul_left (Nat.pow_dvd_pow 2 (by omega)) s))
    have hA : 2 ^ F.frac_bits ≤ A := by
      rcases hlead with ⟨h0, -⟩ | ⟨-, h⟩
      · omega
      · exact h
    have hbsmall : bSig ≤ 2 ^ F.frac_bits := by
      rw [hbSig]
      refine jam_le ?_ (by cases F <;> rfl)
      calc s * 2 ^ F.guard ≤ 2 ^ F.precision * 2 ^ F.guard := Nat.mul_le_mul_right _ hs.le
        _ = 2 ^ F.frac_bits * 2 ^ (F.guard + 1) := by rw [float_format.precision, pow_succ, pow_succ]; ring
        _ ≤ 2 ^ F.frac_bits * 2 ^ d := Nat.mul_le_mul_left _ (Nat.pow_le_pow_right (by norm_num) hd)
    have hbig : 2 ^ (F.width - 3) ≤ aSig - bSig := by
      have h1 : 2 ^ F.frac_bits * 2 ^ F.guard ≤ aSig := by
        rw [haSig]
        exact Nat.mul_le_mul_right _ hA
      have h2 : 2 ^ (F.width - 3) + 2 ^ F.frac_bits ≤ 2 ^ F.frac_bits * 2 ^ F.guard := by cases F <;> decide
      omega
    have hn1 : n ≤ 1 := by
      by_contra hcon
      have h4 : 4 ≤ 2 ^ n := by
        calc 4 = 2 ^ 2 := rfl
          _ ≤ 2 ^ n := Nat.pow_le_pow_right (by norm_num) (by omega)
      have h5 := Nat.mul_le_mul hbig h4
      have h6 : 2 ^ (F.width - 1) = 2 ^ (F.width - 3) * 4 := by cases F <;> rfl
      omega
    have hcell : SameCell 2 ((aSig - bSig : ℕ) : ℚ) ((A - s / 2 ^ d) * 2 ^ F.guard) := by
      have h := (sameCell_jam (s * 2 ^ F.guard) d).mul_sub (A * 2 ^ (F.guard - 1))
      have hpow : (2 : ℚ) ^ (F.guard - 1) * 2 = 2 ^ F.guard := by
        rw [mul_comm]
        exact_mod_cast (two_pow_pred F.guard_pos).symm
      rw [Nat.cast_sub hless.le, haSig, hbSig]
      push_cast at h ⊢
      rw [mul_assoc, hpow] at h
      convert h using 1
      ring
    have h := hcell.scale (c := 2 ^ n) (by positivity)
    rw [← pow_succ'] at h
    push_cast
    exact h.pow_le (by have : 2 ≤ F.guard - 1 := by cases F <;> decide
                       omega)

/-- The sign of a difference of magnitudes. -/
def difference_sign (st : float_status) (zSign : Bool) (x y : ℚ) : Bool :=
  if x = y then decide (st.float_rounding_mode = .down) else if y < x then zSign else !zSign

theorem subFloatSigs_delivered {zSign : Bool} (ha : Finite F a) (hb : Finite F b)
    (htiny : st.float_detect_tininess = .float_tininess_before_rounding) :
    Delivered F st (difference_sign st zSign (magnitude F a) (magnitude F b))
      (signed zSign (magnitude F a - magnitude F b)) (subFloatSigs F a b zSign st) := by
  obtain ⟨-, hplace, -⟩ := lead_place F
  have hsa := shifted_significand (F := F) (a := a) (le_refl _)
  have hsb := shifted_significand (F := F) (a := b) (le_refl _)
  have htop := width_split_top F
  have hsplit := width_split F
  have hlow : ∀ c, significand F c * 2 ^ F.guard < 2 ^ F.width := by
    intro c
    have := Nat.mul_lt_mul_of_pos_right (significand_lt (F := F) (a := c)) (show 0 < 2 ^ F.guard by positivity)
    omega
  -- where the exponents differ, the larger one decides
  have hbigger : ∀ {c e : ℕ}, extractFloatExp F e < extractFloatExp F c →
      (effective F c - effective F e = 0 ∧ significand F e < significand F c ∨
        1 ≤ effective F c - effective F e ∧ 2 ^ F.frac_bits ≤ significand F c) ∧
      magnitude F e < magnitude F c := by
    intro c e hlt
    have hle := (shift_count hlt).2
    have hc : 2 ^ F.frac_bits ≤ significand F c := significand_lead (by omega)
    have hcase : effective F c - effective F e = 0 ∧ significand F e < significand F c ∨
        1 ≤ effective F c - effective F e ∧ 2 ^ F.frac_bits ≤ significand F c := by
      rcases Nat.eq_zero_or_pos (effective F c - effective F e) with h0 | h1
      · refine Or.inl ⟨h0, ?_⟩
        have hzero : extractFloatExp F e = 0 := by
          by_contra hne
          unfold effective at h0
          rw [if_neg hne, if_neg (by omega)] at h0
          omega
        rw [significand, if_pos hzero, Nat.add_zero]
        exact frac_lt.trans_le hc
      · exact Or.inr ⟨h1, hc⟩
    refine ⟨hcase, ?_⟩
    rw [magnitude_shifted hle, magnitude_effective F c]
    refine mul_lt_mul_of_pos_right ?_ (by positivity)
    rw [div_lt_iff₀ (by positivity)]
    rcases hcase with ⟨h0, hsig⟩ | ⟨h1, -⟩
    · rw [h0, pow_zero, mul_one]
      exact_mod_cast hsig
    · have hse := significand_lt (F := F) (a := e)
      rw [float_format.precision, pow_succ] at hse
      have : significand F e < significand F c * 2 ^ (effective F c - effective F e) :=
        hse.trans_le (Nat.mul_le_mul hc (Nat.le_self_pow (by omega) 2))
      exact_mod_cast this
  unfold subFloatSigs
  dsimp only
  rcases Nat.lt_trichotomy (extractFloatExp F b) (extractFloatExp F a) with hlt | heq | hgt
  · obtain ⟨hcount, hle⟩ := shift_count hlt
    obtain ⟨hcase, hmag⟩ := hbigger hlt
    rw [if_pos hlt, if_neg ha.2, hcount, hplace, hsb, shiftRightJamming_eq (hlow b),
      shifted_significand_of_ne (le_refl _) (by omega), difference_sign, if_neg hmag.ne', if_pos hmag,
      magnitude_shifted hle, magnitude_effective F a, ← sub_mul]
    have heff : (extractFloatExp F a : ℤ) = effective F a := by rw [effective, if_neg (by omega)]
    rw [heff]
    exact subAligned_delivered _ significand_lt significand_lt effective_lt hcase rfl rfl htiny
  · -- the leading bits cancel
    rw [if_neg (by omega), if_neg (by omega), if_neg ha.2, shifted_frac (le_refl _), shifted_frac (le_refl _)]
    have hpos : 0 < 2 ^ F.guard := by positivity
    have heff : effective F b = effective F a := by unfold effective; rw [heq]
    have hsig : (significand F a : ℚ) - significand F b = extractFloatFrac F a - extractFloatFrac F b := by
      rw [significand, significand, heq]
      push_cast
      ring
    have hdiff : magnitude F a - magnitude F b
        = (extractFloatFrac F a - extractFloatFrac F b) * 2 ^ ((effective F a : ℤ) - 1 + F.emin) := by
      rw [magnitude_effective, magnitude_effective F b, heff, ← sub_mul, hsig]
    have hscale : (0 : ℚ) < 2 ^ ((effective F a : ℤ) - 1 + F.emin) := by positivity
    have hfrac : ∀ c, extractFloatFrac F c < 2 ^ F.precision := by
      intro c
      have := frac_lt (F := F) (a := c)
      rw [float_format.precision, pow_succ]
      omega
    have hexact : ∀ {x y : ℕ}, y < x → x < 2 ^ F.precision → y < 2 ^ F.precision → ∀ s : Bool,
        Delivered F st s (signed s ((x - y) * 2 ^ ((effective F a : ℤ) - 1 + F.emin)))
          (subAligned F s (effective F a) (x * 2 ^ F.guard) (y * 2 ^ F.guard) st) := by
      intro x y hxy hx hy s
      have h := subAligned_delivered s (d := 0) hx hy (effective_lt (F := F) (a := a))
        (Or.inl ⟨rfl, hxy⟩) rfl rfl htiny
      rwa [jam_of_dvd (Nat.mod_one _), pow_zero, pow_zero, Nat.div_one, div_one] at h
    simp only [Nat.mul_lt_mul_right hpos]
    rcases Nat.lt_trichotomy (extractFloatFrac F b) (extractFloatFrac F a) with hlt | heqf | hgt
    · have hmag : magnitude F b < magnitude F a := by
        rw [← sub_pos, hdiff]
        exact mul_pos (sub_pos.mpr (by exact_mod_cast hlt)) hscale
      rw [if_pos hlt, difference_sign, if_neg hmag.ne', if_pos hmag, hdiff]
      exact hexact hlt (hfrac a) (hfrac b) _
    · have hmag : magnitude F a - magnitude F b = 0 := by rw [hdiff, heqf, sub_self, zero_mul]
      rw [if_neg (by omega), if_neg (by omega), difference_sign, if_pos (sub_eq_zero.mp hmag), hmag, signed_zero]
      exact delivered_zero _ _
    · have hmag : magnitude F a < magnitude F b := by
        rw [← sub_neg, hdiff]
        exact mul_neg_of_neg_of_pos (sub_neg.mpr (by exact_mod_cast hgt)) hscale
      have hneg : magnitude F a - magnitude F b
          = -((extractFloatFrac F b - extractFloatFrac F a) * 2 ^ ((effective F a : ℤ) - 1 + F.emin)) := by
        rw [hdiff]
        ring
      rw [if_neg (by omega), if_pos hgt, difference_sign, if_neg hmag.ne, if_neg (not_lt.mpr hmag.le), hneg,
        ← signed_not]
      exact hexact hgt (hfrac b) (hfrac a) _
  · obtain ⟨hcount, hle⟩ := shift_count hgt
    obtain ⟨hcase, hmag⟩ := hbigger hgt
    have hneg : magnitude F a - magnitude F b = -(magnitude F b - magnitude F a) := by ring
    rw [if_neg (by omega), if_pos hgt, if_neg hb.2, hcount, hplace, hsa, shiftRightJamming_eq (hlow a),
      shifted_significand_of_ne (le_refl _) (by omega), difference_sign, if_neg hmag.ne,
      if_neg (not_lt.mpr hmag.le), hneg, ← signed_not, magnitude_shifted hle, magnitude_effective F b, ← sub_mul]
    have heff : (extractFloatExp F b : ℤ) = effective F b := by rw [effective, if_neg (by omega)]
    rw [heff]
    exact subAligned_delivered _ significand_lt significand_lt effective_lt hcase rfl rfl htiny

/-! ## Sums and differences -/

/-- The sign of a sum; an exact zero of operands with different signs is positive, unless the mode
    rounds down. -/
def sum_sign (st : float_status) (aSign bSign : Bool) (x : ℚ) : Bool :=
  if x = 0 then if aSign = bSign then aSign else decide (st.float_rounding_mode = .down)
  else decide (x < 0)

theorem sum_sign_same {s : Bool} {x y : ℚ} (hx : 0 ≤ x) (hy : 0 ≤ y) :
    sum_sign st s s (signed s (x + y)) = s := by
  unfold sum_sign
  by_cases hzero : signed s (x + y) = 0
  · rw [if_pos hzero, if_pos rfl]
  · rw [if_neg hzero]
    have hne : x + y ≠ 0 := fun h => hzero (signed_eq_zero.mpr h)
    have hpos : 0 < x + y := lt_of_le_of_ne (add_nonneg hx hy) hne.symm
    cases s
    · simp only [signed, Bool.false_eq_true, if_false, decide_eq_false_iff_not, not_lt]
      exact hpos.le
    · simp only [signed, if_true, decide_eq_true_eq, neg_lt_zero]
      exact hpos

theorem sum_sign_different {s : Bool} {x y : ℚ} :
    sum_sign st s (!s) (signed s (x - y)) = difference_sign st s x y := by
  have hs : ¬ s = !s := by cases s <;> decide
  unfold sum_sign difference_sign
  by_cases heq : x = y
  · rw [if_pos heq, if_pos (signed_eq_zero.mpr (sub_eq_zero.mpr heq)), if_neg hs]
  · rw [if_neg heq, if_neg fun h => heq (sub_eq_zero.mp (signed_eq_zero.mp h))]
    rcases lt_or_gt_of_ne heq with hlt | hgt
    · rw [if_neg (not_lt.mpr hlt.le)]
      cases s <;> simp [signed, hlt, hlt.le]
    · rw [if_pos hgt]
      cases s <;> simp [signed, hgt, hgt.le]

theorem sign_cases {aSign bSign : Bool} (h : ¬ aSign = bSign) : bSign = !aSign := by
  cases aSign <;> cases bSign <;> simp_all

theorem addSquashed_delivered (ha : Finite F a) (hb : Finite F b) (hsqa : Squashed F st a) (hsqb : Squashed F st b)
    (htiny : st.float_detect_tininess = .float_tininess_before_rounding) :
    Delivered F st (sum_sign st (extractFloatSign F a) (extractFloatSign F b) (value F a + value F b))
      (value F a + value F b) (addSquashed F a b st) := by
  unfold addSquashed value
  split_ifs with h
  · rw [← h, ← signed_add, sum_sign_same magnitude_nonneg magnitude_nonneg]
    exact addFloatSigs_delivered ha hb hsqa hsqb htiny
  · rw [sign_cases h, signed_not, signed_neg, ← sub_eq_add_neg, ← signed_sub, sum_sign_different]
    exact subFloatSigs_delivered ha hb htiny

theorem subSquashed_delivered (ha : Finite F a) (hb : Finite F b) (hsqa : Squashed F st a) (hsqb : Squashed F st b)
    (htiny : st.float_detect_tininess = .float_tininess_before_rounding) :
    Delivered F st (sum_sign st (extractFloatSign F a) (!extractFloatSign F b) (value F a - value F b))
      (value F a - value F b) (subSquashed F a b st) := by
  unfold subSquashed value
  split_ifs with h
  · rw [← h, ← signed_sub, sum_sign_different]
    exact subFloatSigs_delivered ha hb htiny
  · rw [sign_cases h, Bool.not_not, signed_not, signed_neg, sub_neg_eq_add, ← signed_add,
      sum_sign_same magnitude_nonneg magnitude_nonneg]
    exact addFloatSigs_delivered ha hb hsqa hsqb htiny

/-- The two modes that flush are set and cleared together. -/
def FlushTogether (st : float_status) : Prop := st.flush_to_zero = st.flush_inputs_to_zero

theorem squash_squashed (ha : Finite F a) (hflush : FlushTogether st) :
    Squashed F st (float_squash_input_denormal F a st).1 := fun h =>
  (squash_finite ha st).2.2 (hflush ▸ h)

/-- The sum of finite operands, rounded as the mode asks for. -/
theorem float_add_delivered (ha : Finite F a) (hb : Finite F b) (hflush : FlushTogether st)
    (htiny : st.float_detect_tininess = .float_tininess_before_rounding) :
    let pa := float_squash_input_denormal F a st
    let pb := float_squash_input_denormal F b pa.2
    Delivered F pb.2 (sum_sign st (extractFloatSign F a) (extractFloatSign F b) (value F pa.1 + value F pb.1))
      (value F pa.1 + value F pb.1) (float_add F a b st) := by
  intro pa pb
  have hmodes := (squash_modes F a st).trans (squash_modes F b pa.2)
  have hflush' : FlushTogether pa.2 := by
    rw [FlushTogether, (squash_modes F a st).flush, (squash_modes F a st).flush_inputs, hflush]
  have hsign : ∀ s t x, sum_sign st s t x = sum_sign pb.2 s t x := by
    intro s t x
    rw [sum_sign, sum_sign, hmodes.rounding]
  rw [hsign, ← (squash_finite ha st).2.1, ← (squash_finite hb pa.2).2.1]
  refine addSquashed_delivered (squash_finite ha st).1 (squash_finite hb pa.2).1 ?_ ?_ ?_
  · exact fun h => squash_squashed ha hflush (hmodes.flush ▸ h)
  · exact fun h => squash_squashed hb hflush' ((squash_modes F b pa.2).flush ▸ h)
  · rw [hmodes.detect, htiny]

/-- `0.5 + 0.5`. -/
theorem float_add_delivered_halves :
    Delivered .float32 initial_status
      (sum_sign initial_status false false (value .float32 0x3F000000 + value .float32 0x3F000000))
      (value .float32 0x3F000000 + value .float32 0x3F000000)
      (float_add .float32 0x3F000000 0x3F000000 initial_status) :=
  @float_add_delivered .float32 initial_status 0x3F000000 0x3F000000 (by decide) (by decide) rfl rfl

/-- The difference of finite operands, rounded as the mode asks for. -/
theorem float_sub_delivered (ha : Finite F a) (hb : Finite F b) (hflush : FlushTogether st)
    (htiny : st.float_detect_tininess = .float_tininess_before_rounding) :
    let pa := float_squash_input_denormal F a st
    let pb := float_squash_input_denormal F b pa.2
    Delivered F pb.2 (sum_sign st (extractFloatSign F a) (!extractFloatSign F b) (value F pa.1 - value F pb.1))
      (value F pa.1 - value F pb.1) (float_sub F a b st) := by
  intro pa pb
  have hmodes := (squash_modes F a st).trans (squash_modes F b pa.2)
  have hflush' : FlushTogether pa.2 := by
    rw [FlushTogether, (squash_modes F a st).flush, (squash_modes F a st).flush_inputs, hflush]
  have hsign : ∀ s t x, sum_sign st s t x = sum_sign pb.2 s t x := by
    intro s t x
    rw [sum_sign, sum_sign, hmodes.rounding]
  rw [hsign, ← (squash_finite ha st).2.1, ← (squash_finite hb pa.2).2.1]
  refine subSquashed_delivered (squash_finite ha st).1 (squash_finite hb pa.2).1 ?_ ?_ ?_
  · exact fun h => squash_squashed ha hflush (hmodes.flush ▸ h)
  · exact fun h => squash_squashed hb hflush' ((squash_modes F b pa.2).flush ▸ h)
  · rw [hmodes.detect, htiny]

/-- `1.0 - 0.5`. -/
theorem float_sub_delivered_half :
    Delivered .float64 initial_status
      (sum_sign initial_status false true (value .float64 0x3FF0000000000000 - value .float64 0x3FE0000000000000))
      (value .float64 0x3FF0000000000000 - value .float64 0x3FE0000000000000)
      (float_sub .float64 0x3FF0000000000000 0x3FE0000000000000 initial_status) :=
  @float_sub_delivered .float64 initial_status 0x3FF0000000000000 0x3FE0000000000000 (by decide) (by decide)
    rfl rfl

end Umeq.Fpu
