import Umeq.Fpu.Arithmetic

/-! # Comparisons of `softfloat.c`

    The comparisons look at words only. Apart from NaNs and from the two zeros, the words of a
    format are in the order of what they stand for.

    * `Datum.key`: the order of numbers and infinities.
    * `comparisons_agree`: the relation and the predicates follow that order.
    * `minmax_least`: minimum and maximum, with the negative zero below the positive one.
-/

namespace Umeq.Fpu

open Rounding

variable {F : float_format} {st : float_status} {a b : ℕ}

/-! ## The functions -/

def float_relation_less : ℤ := -1
def float_relation_equal : ℤ := 0
def float_relation_greater : ℤ := 1
def float_relation_unordered : ℤ := 2

/-- `extractFloatExp(a) == nan_exp && extractFloatFrac(a)`, for the one or the other operand. -/
def some_nan (F : float_format) (a b : ℕ) : Bool :=
  (extractFloatExp F a == F.exp_max && extractFloatFrac F a != 0) ||
    (extractFloatExp F b == F.exp_max && extractFloatFrac F b != 0)

/-- `(av | bv) << 1 == 0` -/
def both_zero (F : float_format) (a b : ℕ) : Bool := ((a ||| b) <<< 1) % 2 ^ F.width == 0

/-- The exception of a comparison with a NaN. -/
def unordered_status (F : float_format) (is_quiet : Bool) (a b : ℕ) (st : float_status) : float_status :=
  if !is_quiet || float_is_signaling_nan F a || float_is_signaling_nan F b then float_raise float_flag_invalid st
  else st

/-- After the operands are squashed. -/
def compareSquashed (F : float_format) (is_quiet : Bool) (a b : ℕ) (st : float_status) : ℤ × float_status :=
  if some_nan F a b then (float_relation_unordered, unordered_status F is_quiet a b st)
  else
    let aSign := extractFloatSign F a
    let bSign := extractFloatSign F b
    if aSign ≠ bSign then
      if both_zero F a b then (float_relation_equal, st) else (1 - 2 * (aSign.toNat : ℤ), st)
    else if a = b then (float_relation_equal, st)
    else (1 - 2 * ((aSign ^^ decide (a < b)).toNat : ℤ), st)

/-- `float32_compare_internal` and `float64_compare_internal` -/
def float_compare_internal (F : float_format) (is_quiet : Bool) (a b : ℕ) (st : float_status) :
    ℤ × float_status :=
  let pa := float_squash_input_denormal F a st
  let pb := float_squash_input_denormal F b pa.2
  compareSquashed F is_quiet pa.1 pb.1 pb.2

def float_compare (F : float_format) (a b : ℕ) (st : float_status) : ℤ × float_status :=
  float_compare_internal F false a b st

def float_compare_quiet (F : float_format) (a b : ℕ) (st : float_status) : ℤ × float_status :=
  float_compare_internal F true a b st

/-- What the predicates share: no NaN is in any relation. -/
def predicateSquashed (words : ℕ → ℕ → Bool) (F : float_format) (is_quiet : Bool) (a b : ℕ) (st : float_status) :
    Bool × float_status :=
  if some_nan F a b then (false, unordered_status F is_quiet a b st) else (words a b, st)

def float_predicate (words : ℕ → ℕ → Bool) (F : float_format) (is_quiet : Bool) (a b : ℕ) (st : float_status) :
    Bool × float_status :=
  let pa := float_squash_input_denormal F a st
  let pb := float_squash_input_denormal F b pa.2
  predicateSquashed words F is_quiet pa.1 pb.1 pb.2

def eq_words (F : float_format) (av bv : ℕ) : Bool := av == bv || both_zero F av bv

def le_words (F : float_format) (av bv : ℕ) : Bool :=
  let aSign := extractFloatSign F av
  if aSign ≠ extractFloatSign F bv then aSign || both_zero F av bv
  else av == bv || (aSign ^^ decide (av < bv))

def lt_words (F : float_format) (av bv : ℕ) : Bool :=
  let aSign := extractFloatSign F av
  if aSign ≠ extractFloatSign F bv then aSign && !both_zero F av bv
  else av != bv && (aSign ^^ decide (av < bv))

def float_eq (F : float_format) (a b : ℕ) (st : float_status) : Bool × float_status :=
  float_predicate (eq_words F) F false a b st

def float_le (F : float_format) (a b : ℕ) (st : float_status) : Bool × float_status :=
  float_predicate (le_words F) F false a b st

def float_lt (F : float_format) (a b : ℕ) (st : float_status) : Bool × float_status :=
  float_predicate (lt_words F) F false a b st

def float_eq_quiet (F : float_format) (a b : ℕ) (st : float_status) : Bool × float_status :=
  float_predicate (eq_words F) F true a b st

def float_le_quiet (F : float_format) (a b : ℕ) (st : float_status) : Bool × float_status :=
  float_predicate (le_words F) F true a b st

def float_lt_quiet (F : float_format) (a b : ℕ) (st : float_status) : Bool × float_status :=
  float_predicate (lt_words F) F true a b st

def minmaxSquashed (F : float_format) (ismin isieee : Bool) (a b : ℕ) (st : float_status) : ℕ × float_status :=
  if float_is_any_nan F a || float_is_any_nan F b then
    if isieee && float_is_quiet_nan F a && !float_is_any_nan F b then (b, st)
    else if isieee && float_is_quiet_nan F b && !float_is_any_nan F a then (a, st)
    else propagateFloatNaN F a b st
  else
    let aSign := extractFloatSign F a
    let bSign := extractFloatSign F b
    if aSign ≠ bSign then
      if ismin then (if aSign then a else b, st) else (if aSign then b else a, st)
    else if ismin then (if aSign ^^ decide (a < b) then a else b, st)
    else (if aSign ^^ decide (a < b) then b else a, st)

def float_minmax (F : float_format) (ismin isieee : Bool) (a b : ℕ) (st : float_status) : ℕ × float_status :=
  let pa := float_squash_input_denormal F a st
  let pb := float_squash_input_denormal F b pa.2
  minmaxSquashed F ismin isieee pa.1 pb.1 pb.2

def float_min (F : float_format) (a b : ℕ) (st : float_status) : ℕ × float_status :=
  float_minmax F true false a b st

def float_max (F : float_format) (a b : ℕ) (st : float_status) : ℕ × float_status :=
  float_minmax F false false a b st

def float_minnum (F : float_format) (a b : ℕ) (st : float_status) : ℕ × float_status :=
  float_minmax F true true a b st

def float_maxnum (F : float_format) (a b : ℕ) (st : float_status) : ℕ × float_status :=
  float_minmax F false true a b st

/-! ## The order of words -/

/-- The order of what words stand for; a NaN has no place in it. -/
def Datum.key : Datum → WithBot (WithTop ℚ)
  | .nan => ⊥
  | .infinity s => if s then ⊥ else ⊤
  | .number _ x => ((x : WithTop ℚ) : WithBot (WithTop ℚ))

/-- The place of a word: the negative ones from the largest magnitude up. -/
def place (F : float_format) (a : ℕ) : ℤ :=
  if extractFloatSign F a then -(a % 2 ^ (F.width - 1) : ℕ) - 1 else (a % 2 ^ (F.width - 1) : ℕ)

/-- What a word is in the order. -/
theorem key_cases (h : ¬ IsNaN F a) :
    a % 2 ^ (F.width - 1) = F.exp_max * 2 ^ F.frac_bits ∧
        (datum F a).key = (if extractFloatSign F a then ⊥ else ⊤) ∨
      a % 2 ^ (F.width - 1) < F.exp_max * 2 ^ F.frac_bits ∧
        (datum F a).key = ((value F a : WithTop ℚ) : WithBot (WithTop ℚ)) := by
  have hfrac := frac_lt (F := F) (a := a)
  have hexp := exp_le (F := F) (a := a)
  rw [fields_split]
  by_cases hmax : extractFloatExp F a = F.exp_max
  · have hinf : IsInfinity F a := ⟨hmax, by_contra fun hne => h ⟨hmax, hne⟩⟩
    left
    rw [hinf.datum, hinf.1, hinf.2]
    exact ⟨rfl, rfl⟩
  · right
    have hlt : (extractFloatExp F a + 1) * 2 ^ F.frac_bits ≤ F.exp_max * 2 ^ F.frac_bits :=
      Nat.mul_le_mul_right _ (by omega)
    rw [Nat.succ_mul] at hlt
    refine ⟨by omega, ?_⟩
    rw [datum, if_neg hmax]
    rfl

/-- A word that comes after another one stands for more, unless both are zeros. -/
theorem key_lt (ha : ¬ IsNaN F a) (hb : ¬ IsNaN F b) (hplace : place F a < place F b)
    (hzero : ¬ (a % 2 ^ (F.width - 1) = 0 ∧ b % 2 ^ (F.width - 1) = 0)) : (datum F a).key < (datum F b).key := by
  have hmag := magnitude_lt (F := F) (a := a) (b := b)
  have hmag' := magnitude_lt (F := F) (a := b) (b := a)
  have hposa := magnitude_of_pos (F := F) (a := a)
  have hposb := magnitude_of_pos (F := F) (a := b)
  have hnona := magnitude_nonneg (F := F) (a := a)
  have hnonb := magnitude_nonneg (F := F) (a := b)
  have hkeya := key_cases ha
  have hkeyb := key_cases hb
  unfold place at hplace
  simp only [value, signed] at hkeya hkeyb
  generalize a % 2 ^ (F.width - 1) = ma at *
  generalize b % 2 ^ (F.width - 1) = mb at *
  cases hsa : extractFloatSign F a <;> cases hsb : extractFloatSign F b <;>
    simp only [hsa, hsb, Bool.false_eq_true, if_false, if_true] at hplace hkeya hkeyb
  · -- both are positive: the first one is no infinity
    obtain ⟨-, hka⟩ := hkeya.resolve_left fun hc => by omega
    rcases hkeyb with ⟨-, hkb⟩ | ⟨-, hkb⟩
    · rw [hka, hkb]
      exact WithBot.coe_lt_coe.mpr (WithTop.coe_lt_top _)
    · rw [hka, hkb]
      exact WithBot.coe_lt_coe.mpr (WithTop.coe_lt_coe.mpr (hmag (by omega)))
  · omega
  · rcases hkeya with ⟨-, hka⟩ | ⟨-, hka⟩ <;> rcases hkeyb with ⟨-, hkb⟩ | ⟨-, hkb⟩
    · rw [hka, hkb]
      exact bot_lt_top
    · rw [hka, hkb]
      exact WithBot.bot_lt_coe _
    · rw [hka, hkb]
      exact WithBot.coe_lt_coe.mpr (WithTop.coe_lt_top _)
    · rw [hka, hkb]
      apply WithBot.coe_lt_coe.mpr
      apply WithTop.coe_lt_coe.mpr
      rcases Nat.eq_zero_or_pos ma with hma | hma
      · have := hposb (by omega)
        linarith
      · have := hposa hma
        linarith
  · -- both are negative: the second one is no infinity
    obtain ⟨-, hkb⟩ := hkeyb.resolve_left fun hc => by omega
    rcases hkeya with ⟨-, hka⟩ | ⟨-, hka⟩
    · rw [hka, hkb]
      exact WithBot.bot_lt_coe _
    · rw [hka, hkb]
      exact WithBot.coe_lt_coe.mpr (WithTop.coe_lt_coe.mpr (neg_lt_neg (hmag' (by omega))))

theorem key_zero (ha : a % 2 ^ (F.width - 1) = 0) : (datum F a).key = ((0 : WithTop ℚ) : WithBot (WithTop ℚ)) := by
  have hpos : 0 < F.exp_max * 2 ^ F.frac_bits := by cases F <;> decide
  have hnan : ¬ IsNaN F a := by
    intro h
    rw [fields_split] at ha
    have := h.2
    omega
  obtain ⟨-, hkey⟩ := (key_cases hnan).resolve_left fun hc => by omega
  rw [hkey, value, magnitude_of_zero ha, signed_zero]
  rfl

theorem both_zero_iff :
    both_zero F a b = true ↔ a % 2 ^ (F.width - 1) = 0 ∧ b % 2 ^ (F.width - 1) = 0 := by
  have htop := width_split_top F
  rw [both_zero, beq_iff_eq, Nat.shiftLeft_eq, pow_one]
  have hor : (a ||| b) % 2 ^ (F.width - 1) = 0 ↔ a % 2 ^ (F.width - 1) = 0 ∧ b % 2 ^ (F.width - 1) = 0 := by
    rw [Nat.or_mod_two_pow, Nat.or_eq_zero_iff]
  rw [← hor, htop, Nat.mul_comm, Nat.mul_mod_mul_left]
  omega

/-- Each place has one word. -/
theorem place_injective (ha : a < 2 ^ F.width) (hb : b < 2 ^ F.width) (h : place F a = place F b) : a = b := by
  have htop := width_split_top F
  have hda := Nat.div_add_mod a (2 ^ (F.width - 1))
  have hdb := Nat.div_add_mod b (2 ^ (F.width - 1))
  have hqa : a / 2 ^ (F.width - 1) < 2 := Nat.div_lt_of_lt_mul (by omega)
  have hqb : b / 2 ^ (F.width - 1) < 2 := Nat.div_lt_of_lt_mul (by omega)
  unfold place extractFloatSign at h
  rw [Nat.shiftRight_eq_div_pow, Nat.shiftRight_eq_div_pow] at h
  generalize a / 2 ^ (F.width - 1) = qa at *
  generalize b / 2 ^ (F.width - 1) = qb at *
  rcases (by omega : qa = 0 ∨ qa = 1) with rfl | rfl <;> rcases (by omega : qb = 0 ∨ qb = 1) with rfl | rfl <;>
    simp only [bne_self_eq_false, Bool.false_eq_true, if_false, bne_iff_ne, ne_eq, one_ne_zero, not_false_eq_true,
      if_true] at h <;> omega

/-- The order of places, as the functions find it out. -/
theorem place_lt_iff (ha : a < 2 ^ F.width) (hb : b < 2 ^ F.width) : place F a < place F b ↔
    if extractFloatSign F a ≠ extractFloatSign F b then extractFloatSign F a = true
    else a ≠ b ∧ (extractFloatSign F a ^^ decide (a < b)) = true := by
  have htop := width_split_top F
  have hda := Nat.div_add_mod a (2 ^ (F.width - 1))
  have hdb := Nat.div_add_mod b (2 ^ (F.width - 1))
  have hqa : a / 2 ^ (F.width - 1) < 2 := Nat.div_lt_of_lt_mul (by omega)
  have hqb : b / 2 ^ (F.width - 1) < 2 := Nat.div_lt_of_lt_mul (by omega)
  unfold place extractFloatSign
  rw [Nat.shiftRight_eq_div_pow, Nat.shiftRight_eq_div_pow]
  generalize a / 2 ^ (F.width - 1) = qa at *
  generalize b / 2 ^ (F.width - 1) = qb at *
  generalize a % 2 ^ (F.width - 1) = ra at *
  generalize b % 2 ^ (F.width - 1) = rb at *
  rcases (by omega : qa = 0 ∨ qa = 1) with rfl | rfl <;> rcases (by omega : qb = 0 ∨ qb = 1) with rfl | rfl <;>
    simp <;> omega

/-! ## Comparisons -/

/-- The relation of two of them. -/
def Datum.relation (d e : Datum) : ℤ :=
  if d = .nan ∨ e = .nan then float_relation_unordered
  else if d.key < e.key then float_relation_less
  else if d.key = e.key then float_relation_equal
  else float_relation_greater

theorem some_nan_iff : some_nan F a b = true ↔ IsNaN F a ∨ IsNaN F b := by
  simp [some_nan, IsNaN]

theorem datum_nan_iff : datum F a = .nan ↔ IsNaN F a := by
  unfold datum IsNaN
  split_ifs with hexp hfrac <;> simp_all

/-- The relation, from the places of two words. -/
theorem relation_eq (ha : a < 2 ^ F.width) (hb : b < 2 ^ F.width) (hna : ¬ IsNaN F a) (hnb : ¬ IsNaN F b) :
    (datum F a).relation (datum F b) =
      if both_zero F a b then float_relation_equal
      else if place F a < place F b then float_relation_less
      else if a = b then float_relation_equal
      else float_relation_greater := by
  have hnan : ¬ (datum F a = .nan ∨ datum F b = .nan) := by
    rw [datum_nan_iff, datum_nan_iff]
    exact not_or.mpr ⟨hna, hnb⟩
  rw [Datum.relation, if_neg hnan]
  by_cases hzero : both_zero F a b = true
  · have hz := both_zero_iff.mp hzero
    rw [if_pos hzero, key_zero hz.1, key_zero hz.2, if_neg (lt_irrefl _), if_pos rfl]
  · have hz := fun h => hzero (both_zero_iff.mpr h)
    rw [if_neg hzero]
    rcases lt_trichotomy (place F a) (place F b) with hlt | heq | hgt
    · rw [if_pos hlt, if_pos (key_lt hna hnb hlt hz)]
    · have hab := place_injective ha hb heq
      subst hab
      rw [if_neg (lt_irrefl _), if_neg (lt_irrefl _), if_pos rfl, if_pos rfl]
    · have hkey := key_lt hnb hna hgt fun h => hz h.symm
      have hab : a ≠ b := fun h => by rw [h] at hgt; exact lt_irrefl _ hgt
      rw [if_neg hkey.not_gt, if_neg hkey.ne', if_neg hgt.not_gt, if_neg hab]

/-- The status after a comparison. -/
def relation_status (F : float_format) (is_quiet : Bool) (a b : ℕ) (st : float_status) : float_status :=
  if (datum F a).relation (datum F b) = float_relation_unordered then unordered_status F is_quiet a b st else st

theorem relation_nan (h : some_nan F a b = true) : (datum F a).relation (datum F b) = float_relation_unordered := by
  apply if_pos
  rw [datum_nan_iff, datum_nan_iff]
  exact some_nan_iff.mp h

theorem relation_ordered (is_quiet : Bool) (st : float_status) (ha : a < 2 ^ F.width) (hb : b < 2 ^ F.width) (hnan : ¬ some_nan F a b = true) :
    (datum F a).relation (datum F b) ≠ float_relation_unordered ∧
    compareSquashed F is_quiet a b st = ((datum F a).relation (datum F b), st) ∧
    eq_words F a b = decide ((datum F a).relation (datum F b) = float_relation_equal) ∧
    le_words F a b = decide ((datum F a).relation (datum F b) = float_relation_less ∨
      (datum F a).relation (datum F b) = float_relation_equal) ∧
    lt_words F a b = decide ((datum F a).relation (datum F b) = float_relation_less) := by
  obtain ⟨hna, hnb⟩ := not_or.mp fun h => hnan (some_nan_iff.mpr h)
  have hlt := place_lt_iff (F := F) ha hb
  have hz : both_zero F a b = true → a = b ∨ extractFloatSign F a ≠ extractFloatSign F b := by
    intro hzero
    by_contra hcon
    obtain ⟨hne, hsign⟩ := not_or.mp hcon
    obtain ⟨hza, hzb⟩ := both_zero_iff.mp hzero
    apply hne
    apply place_injective ha hb
    rw [place, place, not_not.mp hsign, hza, hzb]
  have hsame : a = b → extractFloatSign F a = extractFloatSign F b := congrArg _
  rw [relation_eq ha hb hna hnb, compareSquashed, if_neg hnan]
  unfold eq_words le_words lt_words
  simp only [hlt]
  unfold float_relation_equal float_relation_less float_relation_greater float_relation_unordered
  generalize both_zero F a b = z at *
  generalize extractFloatSign F a = aSign at *
  generalize extractFloatSign F b = bSign at *
  by_cases hsign : aSign = bSign
  · -- equal words, or the order of the words, turned around for negative ones
    subst hsign
    by_cases heq : a = b
    · subst heq
      cases z <;> simp
    · have hzf : z = false := by
        cases z
        · rfl
        · exact absurd (hz rfl) (not_or.mpr ⟨heq, fun h => h rfl⟩)
      subst hzf
      cases aSign <;> by_cases hab : a < b <;> simp [heq, hab]
  · -- the sign tells, unless both are zeros
    have heq : ¬ a = b := fun h => hsign (hsame h)
    cases z <;> cases aSign <;> simp [hsign, heq]

/-- All comparisons of two words agree with the order of what they stand for; with a NaN there is no
    relation, and there is an exception unless a comparison is quiet and no NaN is signaling. -/
theorem comparisons_agree (ha : a < 2 ^ F.width) (hb : b < 2 ^ F.width) (st : float_status) (is_quiet : Bool) :
    let pa := float_squash_input_denormal F a st
    let pb := float_squash_input_denormal F b pa.2
    let r := (datum F pa.1).relation (datum F pb.1)
    let st' := relation_status F is_quiet pa.1 pb.1 pb.2
    float_compare_internal F is_quiet a b st = (r, st') ∧
      float_predicate (eq_words F) F is_quiet a b st = (decide (r = float_relation_equal), st') ∧
      float_predicate (le_words F) F is_quiet a b st =
        (decide (r = float_relation_less ∨ r = float_relation_equal), st') ∧
      float_predicate (lt_words F) F is_quiet a b st = (decide (r = float_relation_less), st') := by
  unfold float_compare_internal float_predicate predicateSquashed relation_status
  dsimp only
  generalize hpa : float_squash_input_denormal F a st = pa
  generalize hpb : float_squash_input_denormal F b pa.2 = pb
  have hwa : pa.1 < 2 ^ F.width := hpa ▸ squash_word ha st
  have hwb : pb.1 < 2 ^ F.width := hpb ▸ squash_word hb pa.2
  by_cases hnan : some_nan F pa.1 pb.1 = true
  · rw [relation_nan hnan, compareSquashed, if_pos rfl, if_pos hnan, if_pos hnan, if_pos hnan, if_pos hnan]
    exact ⟨rfl, rfl, rfl, rfl⟩
  · obtain ⟨hr, hcompare, heq, hle, hlt⟩ := relation_ordered is_quiet pb.2 hwa hwb hnan
    rw [hcompare, heq, hle, hlt, if_neg hr, if_neg hnan, if_neg hnan, if_neg hnan]
    exact ⟨rfl, rfl, rfl, rfl⟩

/-- `-1.0` and `1.0`. -/
theorem comparisons_agree_ones :
    let r := (datum .float32 0xBF800000).relation (datum .float32 0x3F800000)
    let st' := relation_status .float32 false 0xBF800000 0x3F800000 initial_status
    float_compare_internal .float32 false 0xBF800000 0x3F800000 initial_status = (r, st') ∧
      float_predicate (eq_words .float32) .float32 false 0xBF800000 0x3F800000 initial_status =
        (decide (r = float_relation_equal), st') ∧
      float_predicate (le_words .float32) .float32 false 0xBF800000 0x3F800000 initial_status =
        (decide (r = float_relation_less ∨ r = float_relation_equal), st') ∧
      float_predicate (lt_words .float32) .float32 false 0xBF800000 0x3F800000 initial_status =
        (decide (r = float_relation_less), st') :=
  @comparisons_agree .float32 0xBF800000 0x3F800000 (by decide) (by decide) initial_status false

/-! ## Minimum and maximum -/

/-- The lesser or the greater of two. -/
def extreme {α : Type} [LinearOrder α] (ismin : Bool) (p q : α) : α := if ismin then min p q else max p q

/-- The operand that is taken. -/
def taken (F : float_format) (ismin : Bool) (a b : ℕ) : ℕ :=
  if place F a < place F b then if ismin then a else b else if ismin then b else a

theorem place_taken (ismin : Bool) : place F (taken F ismin a b) = extreme ismin (place F a) (place F b) := by
  unfold taken extreme
  rcases lt_or_ge (place F a) (place F b) with h | h
  · rw [if_pos h, min_eq_left h.le, max_eq_right h.le]
    cases ismin <;> rfl
  · rw [if_neg h.not_gt, min_eq_right h, max_eq_left h]
    cases ismin <;> rfl

theorem key_mono (ha : a < 2 ^ F.width) (hb : b < 2 ^ F.width) (hna : ¬ IsNaN F a) (hnb : ¬ IsNaN F b)
    (h : place F a ≤ place F b) : (datum F a).key ≤ (datum F b).key := by
  rcases h.lt_or_eq with hlt | heq
  · by_cases hzero : a % 2 ^ (F.width - 1) = 0 ∧ b % 2 ^ (F.width - 1) = 0
    · rw [key_zero hzero.1, key_zero hzero.2]
    · exact (key_lt hna hnb hlt hzero).le
  · rw [place_injective ha hb heq]

theorem key_taken (ismin : Bool) (ha : a < 2 ^ F.width) (hb : b < 2 ^ F.width) (hna : ¬ IsNaN F a)
    (hnb : ¬ IsNaN F b) :
    (datum F (taken F ismin a b)).key = extreme ismin (datum F a).key (datum F b).key := by
  unfold taken extreme
  rcases lt_or_ge (place F a) (place F b) with h | h
  · have hle := key_mono ha hb hna hnb h.le
    rw [if_pos h, min_eq_left hle, max_eq_right hle]
    cases ismin <;> rfl
  · have hle := key_mono hb ha hnb hna h
    rw [if_neg h.not_gt, min_eq_right hle, max_eq_left hle]
    cases ismin <;> rfl

theorem minmax_ordered {ismin isieee : Bool} (ha : a < 2 ^ F.width) (hb : b < 2 ^ F.width) (hna : ¬ IsNaN F a)
    (hnb : ¬ IsNaN F b) : minmaxSquashed F ismin isieee a b st = (taken F ismin a b, st) := by
  have hlt := place_lt_iff (F := F) ha hb
  have hana : float_is_any_nan F a = false := Bool.eq_false_iff.mpr fun h => hna ((any_nan_iff ha).mp h)
  have hanb : float_is_any_nan F b = false := Bool.eq_false_iff.mpr fun h => hnb ((any_nan_iff hb).mp h)
  have hsame : a = b → extractFloatSign F a = extractFloatSign F b := congrArg _
  unfold minmaxSquashed taken
  rw [hana, hanb]
  simp only [hlt]
  generalize extractFloatSign F a = aSign at *
  generalize extractFloatSign F b = bSign at *
  by_cases hsign : aSign = bSign
  · subst hsign
    by_cases heq : a = b
    · subst heq
      cases ismin <;> cases aSign <;> simp
    · by_cases hab : a < b <;> cases ismin <;> cases aSign <;> simp [heq, hab]
  · cases ismin <;> cases aSign <;> simp [hsign]

/-- Minimum and maximum of two words. Of numbers and infinities the operand that stands for the lesser
    or the greater one is taken, and of two zeros the negative one is the lesser; a quiet NaN gives way
    to the other operand where IEEE 754 asks for it, and else NaNs are passed on. -/
theorem minmax_least (ha : a < 2 ^ F.width) (hb : b < 2 ^ F.width) (st : float_status) (ismin isieee : Bool) :
    let pa := float_squash_input_denormal F a st
    let pb := float_squash_input_denormal F b pa.2
    let z := float_minmax F ismin isieee a b st
    (¬ IsNaN F pa.1 → ¬ IsNaN F pb.1 → (z.1 = pa.1 ∨ z.1 = pb.1) ∧ z.2 = pb.2 ∧
        (datum F z.1).key = extreme ismin (datum F pa.1).key (datum F pb.1).key ∧
        place F z.1 = extreme ismin (place F pa.1) (place F pb.1)) ∧
      (IsNaN F pa.1 ∨ IsNaN F pb.1 →
        if isieee = true ∧ float_is_quiet_nan F pa.1 = true ∧ ¬ IsNaN F pb.1 then z = (pb.1, pb.2)
        else if isieee = true ∧ float_is_quiet_nan F pb.1 = true ∧ ¬ IsNaN F pa.1 then z = (pa.1, pb.2)
        else Outcome.nan.Met F pb.2 pa.1 pb.1 z) := by
  unfold float_minmax
  dsimp only
  generalize hpa : float_squash_input_denormal F a st = pa
  generalize hpb : float_squash_input_denormal F b pa.2 = pb
  have hwa : pa.1 < 2 ^ F.width := hpa ▸ squash_word ha st
  have hwb : pb.1 < 2 ^ F.width := hpb ▸ squash_word hb pa.2
  constructor
  · intro hna hnb
    rw [minmax_ordered hwa hwb hna hnb]
    refine ⟨?_, rfl, key_taken ismin hwa hwb hna hnb, place_taken ismin⟩
    unfold taken
    split_ifs <;> simp
  · intro hnan
    have hana : float_is_any_nan F pa.1 = true ↔ IsNaN F pa.1 := any_nan_iff hwa
    have hanb : float_is_any_nan F pb.1 = true ↔ IsNaN F pb.1 := any_nan_iff hwb
    have hany : (float_is_any_nan F pa.1 || float_is_any_nan F pb.1) = true := by
      rw [Bool.or_eq_true, hana, hanb]
      exact hnan
    unfold minmaxSquashed
    rw [if_pos hany]
    simp only [Bool.and_eq_true, Bool.not_eq_true', ← Bool.not_eq_true, hana, hanb, and_assoc]
    split_ifs
    · rfl
    · rfl
    · exact nan_met hwa hwb hnan

/-- The minimum of the two zeros. -/
theorem minmax_least_zeros :
    let z := float_minmax .float64 true false 0 (2 ^ 63) initial_status
    (¬ IsNaN .float64 0 → ¬ IsNaN .float64 (2 ^ 63) → (z.1 = 0 ∨ z.1 = 2 ^ 63) ∧ z.2 = initial_status ∧
        (datum .float64 z.1).key = extreme true (datum .float64 0).key (datum .float64 (2 ^ 63)).key ∧
        place .float64 z.1 = extreme true (place .float64 0) (place .float64 (2 ^ 63))) ∧
      (IsNaN .float64 0 ∨ IsNaN .float64 (2 ^ 63) →
        if false = true ∧ float_is_quiet_nan .float64 0 = true ∧ ¬ IsNaN .float64 (2 ^ 63) then
          z = (2 ^ 63, initial_status)
        else if false = true ∧ float_is_quiet_nan .float64 (2 ^ 63) = true ∧ ¬ IsNaN .float64 0 then
          z = (0, initial_status)
        else Outcome.nan.Met .float64 initial_status 0 (2 ^ 63) z) :=
  @minmax_least .float64 0 (2 ^ 63) (by decide) (by decide) initial_status true false

end Umeq.Fpu
