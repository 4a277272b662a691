import Umeq.Fpu.Operands

/-! # `float32_div` and `float64_div`

    A quotient of significands, as large as a word, with a sticky bit for the remainder. The bit is
    made up only where the lowest bits of the quotient do not tell already on which side of a
    midpoint it is. The quotient of 64 bits is estimated first, and only then corrected.

    The loops of the estimate have a bound on their rounds, three of which are enough.

    * `float_div_delivered`: the quotient of finite operands, rounded.
-/

namespace Umeq.Fpu

open Rounding

variable {F : float_format} {st : float_status} {a b : ℕ}

/-! ## The function -/

/-- The quotient of two significands, with its sticky bit where it is needed. -/
def divSig (fuel : ℕ) (F : float_format) (aSig bSig : ℕ) : Option ℕ :=
  match F with
  | .float32 =>
    let zSig := ((aSig <<< 32) / bSig) % 2 ^ 32
    some (if zSig &&& 0x3F = 0 then zSig ||| if bSig * zSig ≠ aSig <<< 32 then 1 else 0 else zSig)
  | .float64 =>
    match estimateDiv128To64 fuel aSig 0 bSig with
    | none => none
    | some zSig =>
      if zSig &&& 0x1FF ≤ 2 then
        let term := mul64To128 bSig zSig
        match subtractLoop 1 0 bSig fuel zSig (sub128 aSig 0 term.1 term.2) with
        | none => none
        | some (zSig, rem) => some (zSig ||| if rem.2 ≠ 0 then 1 else 0)
      else some zSig

/-- After the special operands. -/
def divFinite (fuel : ℕ) (F : float_format) (zSign : Bool) (a b : ℤ × ℕ) (st : float_status) :
    Option (ℕ × float_status) :=
  let zExp := a.1 - b.1 + F.bias - 2
  let aSig := ((a.2 ||| 2 ^ F.frac_bits) <<< F.guard) % 2 ^ F.width
  let bSig := ((b.2 ||| 2 ^ F.frac_bits) <<< (F.guard + 1)) % 2 ^ F.width
  if bSig ≤ (aSig + aSig) % 2 ^ F.width then
    match divSig fuel F (aSig >>> 1) bSig with
    | none => none
    | some zSig => some (roundAndPackFloat F zSign (zExp + 1) zSig st)
  else
    match divSig fuel F aSig bSig with
    | none => none
    | some zSig => some (roundAndPackFloat F zSign zExp zSig st)

/-- After the operands are squashed. -/
def divSquashed (fuel : ℕ) (F : float_format) (a b : ℕ) (st : float_status) : Option (ℕ × float_status) :=
  let aSig := extractFloatFrac F a
  let aExp := extractFloatExp F a
  let bSig := extractFloatFrac F b
  let bExp := extractFloatExp F b
  let zSign := extractFloatSign F a ^^ extractFloatSign F b
  if aExp = F.exp_max then
    if aSig ≠ 0 then some (propagateFloatNaN F a b st)
    else if bExp = F.exp_max then
      if bSig ≠ 0 then some (propagateFloatNaN F a b st)
      else some (float_default_nan F, float_raise float_flag_invalid st)
    else some (packFloat F zSign F.exp_max 0, st)
  else if bExp = F.exp_max then
    if bSig ≠ 0 then some (propagateFloatNaN F a b st) else some (packFloat F zSign 0 0, st)
  else if bExp = 0 ∧ bSig = 0 then
    if aExp = 0 ∧ aSig = 0 then some (float_default_nan F, float_raise float_flag_invalid st)
    else some (packFloat F zSign F.exp_max 0, float_raise float_flag_divbyzero st)
  else if aExp = 0 ∧ aSig = 0 then some (packFloat F zSign 0 0, st)
  else divFinite fuel F zSign (unpacked F aExp aSig) (unpacked F bExp bSig) st

def float_div (fuel : ℕ) (F : float_format) (a b : ℕ) (st : float_status) : Option (ℕ × float_status) :=
  let pa := float_squash_input_denormal F a st
  let pb := float_squash_input_denormal F b pa.2
  divSquashed fuel F pa.1 pb.1 pb.2

def float32_div (fuel a b : ℕ) (st : float_status) : Option (ℕ × float_status) := float_div fuel .float32 a b st

def float64_div (fuel a b : ℕ) (st : float_status) : Option (ℕ × float_status) := float_div fuel .float64 a b st

/-! ## The quotient -/

/-- The lowest bits of a quotient tell that it is no midpoint. -/
theorem sameCell_quotient {N D z m : ℕ} (hD : 0 < D) (hz : m * (z / m) < N / D) (hz' : N / D ≤ z) (hm : 0 < m) :
    SameCell m z (N / D : ℚ) := by
  have hpos : (0 : ℚ) < D := by exact_mod_cast hD
  have hdiv := Nat.div_add_mod z m
  have hmod := Nat.mod_lt z hm
  have hlow : N / D * D ≤ N := Nat.div_mul_le_self N D
  have hhigh : N < (N / D + 1) * D := (Nat.div_lt_iff_lt_mul hD).mp (Nat.lt_succ_self _)
  refine sameCell_inside (k := (z / m : ℕ)) (by exact_mod_cast hm) ?_ ?_ ?_ ?_
  · have : z / m * m < z := by
      rw [Nat.mul_comm]
      omega
    exact_mod_cast this
  · have : z < (z / m + 1) * m := by
      rw [Nat.succ_mul, Nat.mul_comm]
      omega
    exact_mod_cast this
  · rw [lt_div_iff₀ hpos]
    have : z / m * m * D < N := by
      calc z / m * m * D < N / D * D := Nat.mul_lt_mul_of_pos_right (by rwa [Nat.mul_comm]) hD
        _ ≤ N := hlow
    exact_mod_cast this
  · rw [div_lt_iff₀ hpos]
    have : N < (z / m + 1) * m * D := by
      refine hhigh.trans_le (Nat.mul_le_mul_right _ ?_)
      rw [Nat.succ_mul, Nat.mul_comm]
      omega
    exact_mod_cast this

/-- Three rounds of the loops are enough for the quotient, and it stands for the exact one. -/
theorem divSig_spec {fuel A B : ℕ} (hfuel : 3 ≤ fuel) (hB : 2 ^ (F.width - 1) ≤ B) (hB' : B < 2 ^ F.width)
    (hlow : 2 ^ (F.width - 2) * B ≤ A * 2 ^ F.width) (hhigh : A * 2 ^ F.width < 2 ^ (F.width - 1) * B) :
    ∃ S, divSig fuel F A B = some S ∧ Normalized F S (A * 2 ^ F.width / B) := by
  have hpos : 0 < B := lt_of_lt_of_le (by positivity) hB
  have hq : 2 ^ (F.width - 2) ≤ A * 2 ^ F.width / B := (Nat.le_div_iff_mul_le hpos).mpr hlow
  have hq' : A * 2 ^ F.width / B < 2 ^ (F.width - 1) := (Nat.div_lt_iff_lt_mul hpos).mpr hhigh
  have hsticky := sameCell_sticky (A * 2 ^ F.width) hpos
  -- the sticky bit leaves the quotient in its range
  have hbounds : 2 ^ (F.width - 2) ≤ sticky (A * 2 ^ F.width) B ∧ sticky (A * 2 ^ F.width) B < 2 ^ (F.width - 1) := by
    have heven : 2 ^ (F.width - 1) % 2 = 0 := by cases F <;> rfl
    have heven' : 2 ^ (F.width - 2) % 2 = 0 := by cases F <;> rfl
    by_cases hmod : A * 2 ^ F.width % B = 0
    · rw [sticky_of_dvd hmod]
      exact ⟨hq, hq'⟩
    · rw [sticky_of_not_dvd hmod]
      omega
  have hnorm : Normalized F (sticky (A * 2 ^ F.width) B) (A * 2 ^ F.width / B) := by
    refine ⟨hbounds.1, hbounds.2, ?_⟩
    push_cast at hsticky
    rw [← pow_one (2 : ℚ)] at hsticky
    simpa only [pow_one] using hsticky.pow_le (j := F.guard - 1) (by cases F <;> decide)
  have hrem : ∀ {q : ℕ}, q = A * 2 ^ F.width / B →
      (q ||| if B * q ≠ A * 2 ^ F.width then 1 else 0) = sticky (A * 2 ^ F.width) B := by
    intro q hqeq
    have hdiv := Nat.div_add_mod (A * 2 ^ F.width) B
    rw [sticky, hqeq]
    congr 1
    by_cases hmod : A * 2 ^ F.width % B = 0
    · rw [if_pos hmod, if_neg (by rw [not_not]; omega)]
    · rw [if_neg hmod, if_pos (by omega)]
  cases F with
  | float32 =>
    simp only [float_format.width, divSig, Nat.shiftLeft_eq] at *
    rw [Nat.mod_eq_of_lt (by omega)]
    refine ⟨_, rfl, ?_⟩
    by_cases hbits : A * 2 ^ 32 / B &&& 0x3F = 0
    · rw [if_pos hbits]
      convert hnorm using 1
      exact hrem rfl
    · rw [if_neg hbits]
      refine ⟨hq, hq', ?_⟩
      have hmask : (A * 2 ^ 32 / B) &&& 0x3F = (A * 2 ^ 32 / B) % 2 ^ 6 := Nat.and_two_pow_sub_one_eq_mod _ 6
      rw [hmask] at hbits
      have h := sameCell_quotient (N := A * 2 ^ 32) hpos (z := A * 2 ^ 32 / B) (m := 2 ^ 6) (by omega) (le_refl _)
        (by norm_num)
      exact_mod_cast h
  | float64 =>
    simp only [float_format.width, divSig] at *
    have hA : A < B := by omega
    have hpair : pair128 (A, 0) = A * 2 ^ 64 := by rw [pair128]; omega
    obtain ⟨z, hz, hle, hge⟩ := estimateDiv128To64_spec hfuel hB hB' hA (show 0 < 2 ^ 64 by norm_num)
    rw [hpair] at hle hge
    rw [hz]
    dsimp only
    have hmask : z &&& 0x1FF = z % 2 ^ 9 := Nat.and_two_pow_sub_one_eq_mod _ 9
    rw [hmask]
    by_cases hbits : z % 2 ^ 9 ≤ 2
    · -- the estimate is corrected
      rw [if_pos hbits]
      obtain ⟨k, rfl⟩ : ∃ k, z = A * 2 ^ 64 / B + k := ⟨z - A * 2 ^ 64 / B, by omega⟩
      have hwords := remainder_words (D := B) (k := k) (by omega) (show 0 < 2 ^ 64 by norm_num) hB'
        (show A * 2 ^ 64 / B + k < 2 ^ 64 by omega) hpair (by ring)
      have hpairB : pair128 (0, B) = B := by rw [pair128]; omega
      have hloop := subtractLoop_spec 1 (A * 2 ^ 64) 0 B k fuel (A * 2 ^ 64 / B)
        (sub128 A 0 (mul64To128 B (A * 2 ^ 64 / B + k)).1 (mul64To128 B (A * 2 ^ 64 / B + k)).2)
      rw [hpairB, Nat.mul_one] at hloop
      obtain ⟨rem, hsome, hrem', hrem1⟩ := hloop hpos hB' (by omega) (by omega) (by omega) (by omega) (by norm_num)
        (Nat.mod_lt _ (by norm_num)) hwords
      rw [hsome]
      refine ⟨_, rfl, ?_⟩
      have hmod := Nat.mod_lt (A * 2 ^ 64) hpos
      have hlast : rem.2 = A * 2 ^ 64 % B := by
        rw [pair128] at hrem'
        omega
      have hst : (A * 2 ^ 64 / B ||| if rem.2 ≠ 0 then 1 else 0) = sticky (A * 2 ^ 64) B := by
        rw [sticky, hlast]
        simp only [ite_not]
      rwa [hst]
    · -- the bits of the estimate are enough
      rw [if_neg hbits]
      have hz62 : 2 ^ 62 ≤ z := by omega
      have hz63 : z < 2 ^ 63 := by omega
      refine ⟨z, rfl, hz62, hz63, ?_⟩
      have h := sameCell_quotient (N := A * 2 ^ 64) hpos (z := z) (m := 2 ^ 9) (by omega) hle (by norm_num)
      exact_mod_cast h

theorem quotient_scale (A B Y : ℚ) (hB : B ≠ 0) (u v w : ℤ) (n : ℕ) (hY : Y = A / B * 2 ^ n) (hw : w = u - v - n) :
    A * 2 ^ u / (B * 2 ^ v) = Y * 2 ^ w := by
  rw [hY, hw, zpow_sub₀ (by norm_num), zpow_sub₀ (by norm_num), zpow_natCast]
  field_simp

theorem divFinite_delivered {fuel : ℕ} {zSign : Bool} {ea eb : ℤ} {sa sb : ℕ} (hfuel : 3 ≤ fuel)
    (ha : Unpacked F a ea (sa ||| 2 ^ F.frac_bits)) (hb : Unpacked F b eb (sb ||| 2 ^ F.frac_bits))
    (htiny : st.float_detect_tininess = .float_tininess_before_rounding) :
    ∃ z, divFinite fuel F zSign (ea, sa) (eb, sb) st = some z ∧
      Delivered F st zSign (signed zSign (magnitude F a / magnitude F b)) z := by
  obtain ⟨hA, hA', hea, hea', hmaga⟩ := ha
  obtain ⟨hB, hB', heb, heb', hmagb⟩ := hb
  unfold divFinite
  dsimp only
  generalize sa ||| 2 ^ F.frac_bits = A at *
  generalize sb ||| 2 ^ F.frac_bits = B at *
  have hpos : 0 < 2 ^ F.guard := by positivity
  have hBne : (B : ℚ) ≠ 0 := by
    have : 0 < 2 ^ F.frac_bits := by positivity
    exact_mod_cast (show B ≠ 0 by omega)
  have htop := width_split_top F
  have hbias : F.bias < 2 ^ 11 := by cases F <;> decide
  have hemin : (F.emin : ℤ) = 1 - F.bias - F.frac_bits := rfl
  have hprec : (F.precision : ℤ) = F.frac_bits + 1 := rfl
  have hprec' : 2 ^ F.precision = 2 * 2 ^ F.frac_bits := by rw [float_format.precision, pow_succ']
  -- the shifted significands fit their words
  have hwa : A * 2 ^ F.guard < 2 ^ (F.width - 1) := by
    rw [width_split]
    exact Nat.mul_lt_mul_of_pos_right hA' hpos
  have hwa' : 2 ^ (F.width - 2) ≤ A * 2 ^ F.guard := by
    rw [width_split']
    exact Nat.mul_le_mul_right _ hA
  have htwice : B * 2 ^ (F.guard + 1) = 2 * (B * 2 ^ F.guard) := by rw [pow_succ]; ring
  have hwb : B * 2 ^ F.guard < 2 ^ (F.width - 1) := by
    rw [width_split]
    exact Nat.mul_lt_mul_of_pos_right hB' hpos
  have hwb' : 2 ^ (F.width - 2) ≤ B * 2 ^ F.guard := by
    rw [width_split']
    exact Nat.mul_le_mul_right _ hB
  have hhalf : 2 ^ (F.width - 1) = 2 * 2 ^ (F.width - 2) := by cases F <;> rfl
  simp only [Nat.shiftLeft_eq]
  rw [Nat.mod_eq_of_lt (show A * 2 ^ F.guard < 2 ^ F.width by omega),
    Nat.mod_eq_of_lt (show B * 2 ^ (F.guard + 1) < 2 ^ F.width by omega),
    Nat.mod_eq_of_lt (show A * 2 ^ F.guard + A * 2 ^ F.guard < 2 ^ F.width by omega)]
  have hwidth : 2 ^ F.width = 2 ^ F.precision * 2 ^ F.guard * 2 := by rw [← width_split, htop, Nat.mul_comm]
  by_cases hle : B * 2 ^ (F.guard + 1) ≤ A * 2 ^ F.guard + A * 2 ^ F.guard
  · -- the quotient is at least one
    rw [if_pos hle]
    have heven : A * 2 ^ F.guard = A * 2 ^ (F.guard - 1) * 2 := by
      rw [two_pow_pred F.guard_pos]
      ring
    have hshift : (A * 2 ^ F.guard) >>> 1 = A * 2 ^ (F.guard - 1) := by
      rw [Nat.shiftRight_eq_div_pow, pow_one, heven, Nat.mul_div_cancel _ (by norm_num)]
    rw [hshift]
    obtain ⟨S, hS, hnorm⟩ := divSig_spec (F := F) (A := A * 2 ^ (F.guard - 1)) (B := B * 2 ^ (F.guard + 1)) hfuel
      (by omega) (by omega)
      (by rw [htop, hhalf]
          have := Nat.mul_le_mul_left (2 ^ (F.width - 2)) (show B * 2 ^ (F.guard + 1) ≤ A * 2 ^ (F.guard - 1) * 4 by omega)
          linarith)
      (by rw [htop]
          have := Nat.mul_lt_mul_of_pos_left (show A * 2 ^ (F.guard - 1) * 2 < B * 2 ^ (F.guard + 1) by omega)
            (show 0 < 2 ^ (F.width - 1) by positivity)
          linarith)
    rw [hS]
    refine ⟨_, rfl, ?_⟩
    convert roundAndPack_delivered zSign (ea - eb + F.bias - 2 + 1) hnorm (by omega) (by omega)
      htiny using 2
    rw [hmaga, hmagb]
    refine quotient_scale A B _ hBne (ea - 1 + F.emin) (eb - 1 + F.emin) _ F.frac_bits ?_ (by rw [hemin]; ring)
    have hcast : (2 : ℚ) ^ F.width = 2 * 2 ^ F.frac_bits * 2 ^ F.guard * 2 := by
      rw [hprec'] at hwidth
      exact_mod_cast hwidth
    have hcast' : (2 : ℚ) ^ F.guard = 2 * 2 ^ (F.guard - 1) := by exact_mod_cast two_pow_pred F.guard_pos
    rw [hcast, pow_succ]
    push_cast
    field_simp
    rw [hcast']
    ring
  · rw [if_neg hle]
    obtain ⟨S, hS, hnorm⟩ := divSig_spec (F := F) (A := A * 2 ^ F.guard) (B := B * 2 ^ (F.guard + 1)) hfuel
      (by omega) (by omega)
      (by rw [htop, hhalf]
          have := Nat.mul_le_mul_left (2 ^ (F.width - 2)) (show B * 2 ^ (F.guard + 1) ≤ A * 2 ^ F.guard * 4 by omega)
          linarith)
      (by rw [htop]
          have := Nat.mul_lt_mul_of_pos_left (show A * 2 ^ F.guard * 2 < B * 2 ^ (F.guard + 1) by omega)
            (show 0 < 2 ^ (F.width - 1) by positivity)
          linarith)
    rw [hS]
    refine ⟨_, rfl, ?_⟩
    convert roundAndPack_delivered zSign (ea - eb + F.bias - 2) hnorm (by omega) (by omega)
      htiny using 2
    rw [hmaga, hmagb]
    refine quotient_scale A B _ hBne (ea - 1 + F.emin) (eb - 1 + F.emin) _ F.precision ?_
      (by rw [hemin, hprec]; ring)
    have hcast : (2 : ℚ) ^ F.width = 2 ^ F.precision * 2 ^ F.guard * 2 := by exact_mod_cast hwidth
    rw [hcast, pow_succ]
    push_cast
    field_simp

theorem signed_div (s t : Bool) (x y : ℚ) : signed s x / signed t y = signed (s ^^ t) (x / y) := by
  cases s <;> cases t <;> simp [signed, neg_div, div_neg]

theorem divSquashed_delivered {fuel : ℕ} (hfuel : 3 ≤ fuel) (ha : Finite F a) (hb : Finite F b)
    (hzero : value F b ≠ 0) (htiny : st.float_detect_tininess = .float_tininess_before_rounding) :
    ∃ z, divSquashed fuel F a b st = some z ∧
      Delivered F st (extractFloatSign F a ^^ extractFloatSign F b) (value F a / value F b) z := by
  have hzb : ¬ (extractFloatExp F b = 0 ∧ extractFloatFrac F b = 0) := by
    intro h
    rw [value, magnitude_zero h, signed_zero] at hzero
    exact hzero rfl
  unfold divSquashed
  dsimp only
  rw [if_neg ha.2, if_neg hb.2, if_neg hzb, value, value, signed_div]
  by_cases hza : extractFloatExp F a = 0 ∧ extractFloatFrac F a = 0
  · rw [if_pos hza, magnitude_zero hza, zero_div, signed_zero]
    exact ⟨_, rfl, delivered_zero _ _⟩
  · rw [if_neg hza]
    exact divFinite_delivered hfuel (unpacked_spec ha hza) (unpacked_spec hb hzb) htiny

/-- The quotient of finite operands, rounded as the mode asks for; the loops end. -/
theorem float_div_delivered {fuel : ℕ} (hfuel : 3 ≤ fuel) (ha : Finite F a) (hb : Finite F b)
    (htiny : st.float_detect_tininess = .float_tininess_before_rounding) :
    let pa := float_squash_input_denormal F a st
    let pb := float_squash_input_denormal F b pa.2
    value F pb.1 ≠ 0 → ∃ z, float_div fuel F a b st = some z ∧
      Delivered F pb.2 (extractFloatSign F a ^^ extractFloatSign F b) (value F pa.1 / value F pb.1) z := by
  intro pa pb hzero
  have hmodes := (squash_modes F a st).trans (squash_modes F b pa.2)
  rw [← (squash_finite ha st).2.1, ← (squash_finite hb pa.2).2.1]
  exact divSquashed_delivered hfuel (squash_finite ha st).1 (squash_finite hb pa.2).1 hzero
    (by rw [hmodes.detect, htiny])

/-- `1.0 / 0.5`. -/
theorem float_div_delivered_half :
    ∃ z, float_div 3 .float64 0x3FF0000000000000 0x3FE0000000000000 initial_status = some z ∧
      Delivered .float64 initial_status false
        (value .float64 0x3FF0000000000000 / value .float64 0x3FE0000000000000) z := by
  refine float_div_delivered (F := .float64) (a := 0x3FF0000000000000) (b := 0x3FE0000000000000) (le_refl 3)
    (by decide) (by decide) rfl ?_
  have hsig : significand .float64 0x3FE0000000000000 ≠ 0 := by decide
  rw [value, Ne, signed_eq_zero, magnitude]
  exact (mul_pos (by exact_mod_cast Nat.pos_of_ne_zero hsig) (by positivity)).ne'

end Umeq.Fpu
