import Mathlib.Tactic.Linarith
import Umeq.Arm.Int128

/-! # Saturating vector shifts

    VQSHL and VQRSHL of `arm_helpers.c`. A lane is widened to 128 bits, shifted by the low
    byte of a lane of the other register, and brought back to the width of the lane by
    one or two saturations, that set the sticky flag QC of `fpscr`.

    The functions are written once for the two kinds of 128-bit integers. That they mean
    the same is `vqshl_signed_native` and `vqshl_unsigned_native`, and what they mean is
    found with the integers of the compiler.
-/

namespace Umeq.Arm

/-! ## Saturations -/

/-- `regs->fpscr |= 1 << 27`. -/
def set_qc (fpscr : BitVec 32) : BitVec 32 := fpscr ||| 1#32 <<< 27

/-- `DECLARE_SSAT`. -/
def ssat (size : Nat) (max min : Int) (fpscr : BitVec 32) (op : BitVec 64) :
    BitVec size × BitVec 32 :=
  if max < op.toInt then (BitVec.ofInt size max, set_qc fpscr)
  else if op.toInt < min then (BitVec.ofInt size min, set_qc fpscr)
  else (op.setWidth size, fpscr)

def ssat8 := ssat 8 0x7f (-0x80)

def ssat16 := ssat 16 0x7fff (-0x8000)

def ssat32 := ssat 32 0x7fffffff (-0x80000000)

/-- `DECLARE_USAT`. -/
def usat (size : Nat) (max : Int) (fpscr : BitVec 32) (op : BitVec 64) : BitVec size × BitVec 32 :=
  if max < op.toInt then (BitVec.ofInt size max, set_qc fpscr)
  else if op.toInt < 0 then (0, set_qc fpscr)
  else (op.setWidth size, fpscr)

def usat8 := usat 8 0xff

def usat16 := usat 16 0xffff

def usat32 := usat 32 0xffffffff

/-- `DECLARE_USAT_U`. -/
def usat_u (size : Nat) (max : Nat) (fpscr : BitVec 32) (op : BitVec 64) :
    BitVec size × BitVec 32 :=
  if max < op.toNat then (BitVec.ofNat size max, set_qc fpscr) else (op.setWidth size, fpscr)

def usat8_u := usat_u 8 0xff

def usat16_u := usat_u 16 0xffff

def usat32_u := usat_u 32 0xffffffff

section shifts

variable (ops : int128_ops)

def ssat64 (fpscr : BitVec 32) (op : ops.int128_t) : BitVec 64 × BitVec 32 :=
  let max := ops.INT128_INT64_MAX
  let min := ops.INT128_INT64_MIN
  if ops.int128_gt op max then (ops.int128_to_int64_t max, set_qc fpscr)
  else if ops.int128_gt min op then (ops.int128_to_int64_t min, set_qc fpscr)
  else (ops.int128_to_int64_t op, fpscr)

def usat64 (fpscr : BitVec 32) (op : ops.int128_t) : BitVec 64 × BitVec 32 :=
  let max := ops.INT128_UINT64_MAX
  let min := ops.INT128_ZERO
  if ops.int128_gt op max then (ops.int128_to_uint64_t max, set_qc fpscr)
  else if ops.int128_gt min op then (0, set_qc fpscr)
  else (ops.int128_to_uint64_t op, fpscr)

def usat64_u (fpscr : BitVec 32) (op : ops.uint128_t) : BitVec 64 × BitVec 32 :=
  let max := ops.UINT128_UINT64_MAX
  if ops.uint128_gt op max then (ops.uint128_to_uint64_t max, set_qc fpscr)
  else (ops.uint128_to_uint64_t op, fpscr)

/-! ## Shifts -/

/-- A shift to the left keeps what the saturation needs when it is limited to 64. -/
def limit (shift : Int) : Int := if 64 < shift then 64 else shift

/-- The variable `round` of `ushl`. -/
def ushl_round (shift : BitVec 8) (is_round : Bool) : Option ops.uint128_t :=
  if is_round ∧ shift.toInt < 0 then
    ops.uint128_shl (ops.uint64_to_uint128_t 1) (-shift.toInt - 1)
  else some ops.UINT128_ZERO

def ushl_res (val round : ops.uint128_t) (shift : BitVec 8) : Option ops.uint128_t :=
  if shift.toInt = -128 then some ops.UINT128_ZERO
  else if 0 ≤ shift.toInt then ops.uint128_shl val (limit shift.toInt)
  else ops.uint128_shr (ops.uint128_add val round) (-shift.toInt)

def ushl (val : ops.uint128_t) (shift : BitVec 8) (is_round : Bool) : Option ops.uint128_t := do
  let round ← ushl_round ops shift is_round
  ushl_res ops val round shift

/-- The variable `round` of `sshl`. -/
def sshl_round (shift : BitVec 8) (is_round : Bool) : Option ops.int128_t :=
  if is_round ∧ shift.toInt < 0 then
    ops.int128_shl (ops.int64_to_int128_t 1) (-shift.toInt - 1)
  else some ops.INT128_ZERO

/-- By -128, with the rounding constant bit 128 of the sum is 0, and without it the sign is left. -/
def sshl_res (val round : ops.int128_t) (shift : BitVec 8) (is_round : Bool) :
    Option ops.int128_t :=
  if shift.toInt = -128 then
    if is_round then some ops.INT128_ZERO else ops.int128_shr val 127
  else if 0 ≤ shift.toInt then ops.int128_shl val (limit shift.toInt)
  else ops.int128_shr (ops.int128_add val round) (-shift.toInt)

def sshl (val : ops.int128_t) (shift : BitVec 8) (is_round : Bool) : Option ops.int128_t := do
  let round ← sshl_round ops shift is_round
  sshl_res ops val round shift is_round

end shifts

/-! ## Lanes -/

/-- The field `size`. -/
inductive lane_size where
  | s8
  | s16
  | s32
  | s64
  deriving DecidableEq

def lane_size.bits : lane_size → Nat
  | .s8 => 8
  | .s16 => 16
  | .s32 => 32
  | .s64 => 64

section lanes

variable (ops : int128_ops)

/-- The saturations that come after that to 64 bits. -/
def usat_lane (fpscr : BitVec 32) (op : BitVec 64) : (size : lane_size) → BitVec size.bits × BitVec 32
  | .s8 => usat8_u fpscr op
  | .s16 => usat16_u fpscr op
  | .s32 => usat32_u fpscr op
  | .s64 => usat64_u ops fpscr (ops.uint64_to_uint128_t op)

def ssat_lane (fpscr : BitVec 32) (op : BitVec 64) : (size : lane_size) → BitVec size.bits × BitVec 32
  | .s8 => ssat8 fpscr op
  | .s16 => ssat16 fpscr op
  | .s32 => ssat32 fpscr op
  | .s64 => (op, fpscr)

variable {size : lane_size}

/-- One lane of `dis_common_vqshl_vqrshl_simd`: the new lane and the new `fpscr`. -/
def vqshl_unsigned (x : BitVec size.bits) (shift : BitVec 8) (is_rounding : Bool)
    (fpscr : BitVec 32) : Option (BitVec size.bits × BitVec 32) := do
  let u_res_before_sat ← ushl ops (ops.uint64_to_uint128_t (x.setWidth 64)) shift is_rounding
  let (op, fpscr) := usat64_u ops fpscr u_res_before_sat
  return usat_lane ops fpscr op size

def vqshl_signed (x : BitVec size.bits) (shift : BitVec 8) (is_rounding : Bool)
    (fpscr : BitVec 32) : Option (BitVec size.bits × BitVec 32) := do
  let s_res_before_sat ← sshl ops (ops.int64_to_int128_t (x.signExtend 64)) shift is_rounding
  let (op, fpscr) := ssat64 ops fpscr s_res_before_sat
  return ssat_lane fpscr op size

/-- A signed lane with the saturation to an unsigned one. VQSHL has no such form: this is the third
    way in which the functions go together. -/
def usat_signed_lane (fpscr : BitVec 32) (op : ops.int128_t) :
    (size : lane_size) → BitVec size.bits × BitVec 32
  | .s8 => usat8 (ssat64 ops fpscr op).2 (ssat64 ops fpscr op).1
  | .s16 => usat16 (ssat64 ops fpscr op).2 (ssat64 ops fpscr op).1
  | .s32 => usat32 (ssat64 ops fpscr op).2 (ssat64 ops fpscr op).1
  | .s64 => usat64 ops fpscr op

def sshl_usat (x : BitVec size.bits) (shift : BitVec 8) (is_rounding : Bool) (fpscr : BitVec 32) :
    Option (BitVec size.bits × BitVec 32) := do
  let s_res_before_sat ← sshl ops (ops.int64_to_int128_t (x.signExtend 64)) shift is_rounding
  return usat_signed_lane ops fpscr s_res_before_sat size

end lanes

/-! ## What a lane is to be -/

/-- The floor of `x * 2 ^ shift`, with the rounding constant added before a division. -/
def scaled (x shift : Int) (is_round : Bool) : Int :=
  if 0 ≤ shift then x * 2 ^ shift.toNat
  else (x + if is_round then 2 ^ (-shift - 1).toNat else 0) / 2 ^ (-shift).toNat

/-- `got` is `v` clamped to the range from `lo` to `hi`, and QC is set when that is another value. -/
structure Clamped (lo hi v : Int) (fpscr : BitVec 32) (got : Int) (fpscr' : BitVec 32) : Prop where
  value : got = max lo (min hi v)
  sticky : fpscr' = if got = v then fpscr else set_qc fpscr

/-! ## Clamping -/

section clamping

variable {lo hi v got : Int} {fpscr fpscr' : BitVec 32}

theorem set_qc_twice (fpscr : BitVec 32) : set_qc (set_qc fpscr) = set_qc fpscr := by
  simp [set_qc, BitVec.or_assoc]

/-- The three ways through a saturation. -/
theorem clamped_cases (hle : lo ≤ hi) (habove : hi < v → got = hi ∧ fpscr' = set_qc fpscr)
    (hbelow : ¬ hi < v → v < lo → got = lo ∧ fpscr' = set_qc fpscr)
    (hinside : ¬ hi < v → ¬ v < lo → got = v ∧ fpscr' = fpscr) : Clamped lo hi v fpscr got fpscr' := by
  by_cases h : hi < v
  · obtain ⟨rfl, rfl⟩ := habove h
    exact ⟨by omega, by rw [if_neg (by omega)]⟩
  by_cases h' : v < lo
  · obtain ⟨rfl, rfl⟩ := hbelow h h'
    exact ⟨by omega, by rw [if_neg (by omega)]⟩
  · obtain ⟨rfl, rfl⟩ := hinside h h'
    exact ⟨by omega, by rw [if_pos rfl]⟩

/-- A clamp to a range inside of the first. -/
theorem Clamped.trans {lo' hi' got' : Int} {fpscr'' : BitVec 32} (h : Clamped lo hi v fpscr got fpscr')
    (h' : Clamped lo' hi' got fpscr' got' fpscr'') (hlo : lo ≤ lo') (hle : lo' ≤ hi') (hhi : hi' ≤ hi) :
    Clamped lo' hi' v fpscr got' fpscr'' := by
  have hv := h.value
  have hv' := h'.value
  refine ⟨by omega, ?_⟩
  rw [h'.sticky, h.sticky]
  by_cases heq : got = v
  · rw [if_pos heq, heq]
  · -- what was out of the first range is out of the second
    rw [if_neg heq, if_neg (show ¬ got' = v by omega), set_qc_twice, ite_self]

/-- Two numbers that are out of the range on one side clamp alike. -/
theorem Clamped.same {v' : Int} (h : Clamped lo hi v fpscr got fpscr') (hle : lo ≤ hi)
    (hside : v = v' ∨ hi < v ∧ hi < v' ∨ v < lo ∧ v' < lo) : Clamped lo hi v' fpscr got fpscr' := by
  have hv := h.value
  refine ⟨by omega, ?_⟩
  rw [h.sticky]
  have hiff : got = v ↔ got = v' := by omega
  simp only [hiff]

end clamping

/-! ## The two kinds of integers -/

section representation

variable {ops : int128_ops} {s : ops.int128_t → BitVec 128} {u : ops.uint128_t → BitVec 128}

/-- A computation in two steps means what its steps mean. -/
theorem map_bind_of {α β : Type} {f : α → β} {x : Option α} {y : Option β} {k : α → Option α}
    {k' : β → Option β} (hx : x.map f = y) (hk : ∀ a, (k a).map f = k' (f a)) :
    (x.bind k).map f = y.bind k' := by
  subst hx
  cases x with
  | none => rfl
  | some a => exact hk a

theorem sshl_native (h : ops.Represents s u) (val : ops.int128_t) (shift : BitVec 8)
    (is_round : Bool) : (sshl ops val shift is_round).map s = sshl native (s val) shift is_round := by
  apply map_bind_of
  · unfold sshl_round
    split_ifs
    · rw [h.shl, h.of_int64]
    · exact congrArg some h.zero
  · intro round
    unfold sshl_res
    split_ifs
    · exact congrArg some h.zero
    · exact h.shr val 127 (by decide)
    · exact h.shl val _
    · rw [h.shr _ _ (by omega), h.add]

theorem ushl_native (h : ops.Represents s u) (val : ops.uint128_t) (shift : BitVec 8)
    (is_round : Bool) : (ushl ops val shift is_round).map u = ushl native (u val) shift is_round := by
  apply map_bind_of
  · unfold ushl_round
    split_ifs
    · rw [h.u_shl, h.of_uint64]
    · exact congrArg some h.u_zero
  · intro round
    unfold ushl_res
    split_ifs
    · exact congrArg some h.u_zero
    · exact h.u_shl val _
    · rw [h.u_shr _ _ (by omega), h.u_add]

theorem ssat64_native (h : ops.Represents s u) (fpscr : BitVec 32) (op : ops.int128_t) :
    ssat64 ops fpscr op = ssat64 native fpscr (s op) := by
  simp only [ssat64, h.gt, h.to_int64, h.int64_max, h.int64_min]

theorem usat64_native (h : ops.Represents s u) (fpscr : BitVec 32) (op : ops.int128_t) :
    usat64 ops fpscr op = usat64 native fpscr (s op) := by
  simp only [usat64, h.gt, h.to_uint64, h.uint64_max, h.zero]

theorem usat64_u_native (h : ops.Represents s u) (fpscr : BitVec 32) (op : ops.uint128_t) :
    usat64_u ops fpscr op = usat64_u native fpscr (u op) := by
  simp only [usat64_u, h.u_gt, h.u_to_uint64, h.u_uint64_max]

theorem usat_lane_native (h : ops.Represents s u) (fpscr : BitVec 32) (op : BitVec 64)
    (size : lane_size) : usat_lane ops fpscr op size = usat_lane native fpscr op size := by
  cases size
  case s64 => exact (usat64_u_native h _ _).trans (by rw [h.of_uint64]; rfl)
  all_goals rfl

variable {size : lane_size}

theorem vqshl_signed_native (h : ops.Represents s u) (x : BitVec size.bits) (shift : BitVec 8)
    (is_rounding : Bool) (fpscr : BitVec 32) :
    vqshl_signed ops x shift is_rounding fpscr = vqshl_signed native x shift is_rounding fpscr := by
  have hshl := sshl_native h (ops.int64_to_int128_t (x.signExtend 64)) shift is_rounding
  rw [h.of_int64] at hshl
  unfold vqshl_signed
  rw [← hshl]
  cases sshl ops (ops.int64_to_int128_t (x.signExtend 64)) shift is_rounding with
  | none => rfl
  | some res =>
    simp only [Option.map_some, bind, Option.bind_some, ssat64_native h]
    rfl

theorem usat_signed_lane_native (h : ops.Represents s u) (fpscr : BitVec 32) (op : ops.int128_t)
    (size : lane_size) :
    usat_signed_lane ops fpscr op size = usat_signed_lane native fpscr (s op) size := by
  cases size <;> simp only [usat_signed_lane, ssat64_native h, usat64_native h] <;> rfl

theorem sshl_usat_native (h : ops.Represents s u) (x : BitVec size.bits) (shift : BitVec 8)
    (is_rounding : Bool) (fpscr : BitVec 32) :
    sshl_usat ops x shift is_rounding fpscr = sshl_usat native x shift is_rounding fpscr := by
  have hshl := sshl_native h (ops.int64_to_int128_t (x.signExtend 64)) shift is_rounding
  rw [h.of_int64] at hshl
  unfold sshl_usat
  rw [← hshl]
  cases sshl ops (ops.int64_to_int128_t (x.signExtend 64)) shift is_rounding with
  | none => rfl
  | some res =>
    simp only [Option.map_some, bind, Option.bind_some, usat_signed_lane_native h]
    rfl

theorem vqshl_unsigned_native (h : ops.Represents s u) (x : BitVec size.bits) (shift : BitVec 8)
    (is_rounding : Bool) (fpscr : BitVec 32) :
    vqshl_unsigned ops x shift is_rounding fpscr
      = vqshl_unsigned native x shift is_rounding fpscr := by
  have hshl := ushl_native h (ops.uint64_to_uint128_t (x.setWidth 64)) shift is_rounding
  rw [h.of_uint64] at hshl
  unfold vqshl_unsigned
  rw [← hshl]
  cases ushl ops (ops.uint64_to_uint128_t (x.setWidth 64)) shift is_rounding with
  | none => rfl
  | some res =>
    simp only [Option.map_some, bind, Option.bind_some, usat64_u_native h, usat_lane_native h]
    rfl

end representation

/-! ## Shifts of the integers of the compiler -/

theorem toInt_shl {x : BitVec 128} {n : Nat} (hlo : -2 ^ 127 ≤ x.toInt * 2 ^ n)
    (hhi : x.toInt * 2 ^ n < 2 ^ 127) : (x <<< n).toInt = x.toInt * 2 ^ n := by
  rw [BitVec.toInt_shiftLeft, Nat.shiftLeft_eq, Int.natCast_mul, ← Int.bmod_mul_bmod,
    ← BitVec.toInt_eq_toNat_bmod, Int.natCast_pow, Int.cast_ofNat_Int]
  exact Int.bmod_eq_of_le (by omega) (by omega)

theorem toInt_sum {x y : BitVec 128} (hlo : -2 ^ 127 ≤ x.toInt + y.toInt)
    (hhi : x.toInt + y.toInt < 2 ^ 127) : (x + y).toInt = x.toInt + y.toInt := by
  rw [BitVec.toInt_add]
  exact Int.bmod_eq_of_le (by omega) (by omega)

theorem toInt_byte (shift : BitVec 8) : -128 ≤ shift.toInt ∧ shift.toInt ≤ 127 :=
  ⟨BitVec.le_toInt shift, Int.le_of_lt_add_one BitVec.toInt_lt⟩

/-- A power of two stays below a larger one. -/
theorem two_pow_le {n m : Nat} (h : n ≤ m) : (2 : Int) ^ n ≤ 2 ^ m := by
  exact_mod_cast Nat.pow_le_pow_right (by decide) h

theorem assert_shift_some {α : Type} {shift : Int} (res : Nat → α) (hlo : 0 ≤ shift) (hhi : shift < 128) :
    assert_shift shift res = some (res shift.toNat) := if_pos ⟨hlo, hhi⟩

/-- The rounding constant, where a rounding shift to the right is not by 128. -/
theorem sshl_round_value {shift : BitVec 8} (h128 : shift.toInt ≠ -128) (hneg : shift.toInt < 0)
    (is_round : Bool) : ∃ r : BitVec 128, sshl_round native shift is_round = some r ∧
      r.toInt = if is_round then 2 ^ (-shift.toInt - 1).toNat else 0 := by
  have hbyte := toInt_byte shift
  have hone : (BitVec.signExtend 128 1#64).toInt = 1 := by decide
  cases is_round with
  | false => exact ⟨0, by simp [sshl_round, native], rfl⟩
  | true =>
    have hpow := two_pow_le (show (-shift.toInt - 1).toNat ≤ 126 by omega)
    have hpos : (0 : Int) < 2 ^ (-shift.toInt - 1).toNat := Int.pow_pos (by decide)
    refine ⟨BitVec.signExtend 128 1#64 <<< (-shift.toInt - 1).toNat, ?_, ?_⟩
    · rw [sshl_round, if_pos ⟨rfl, hneg⟩]
      exact assert_shift_some _ (by omega) (by omega)
    · rw [toInt_shl (by rw [hone]; omega) (by rw [hone]; omega), hone, if_pos rfl, Int.one_mul]

theorem limit_of_neg {shift : Int} (h : shift < 0) : limit shift = shift := if_neg (by omega)

theorem limit_of_nonneg {shift : Int} (h : 0 ≤ shift) : 0 ≤ limit shift ∧ limit shift ≤ 64 := by
  unfold limit
  omega

theorem sshl_value (v : BitVec 128) (hlo : -2 ^ 63 ≤ v.toInt) (hhi : v.toInt < 2 ^ 63)
    (shift : BitVec 8) (is_round : Bool) : ∃ r : BitVec 128, sshl native v shift is_round = some r ∧
      r.toInt = scaled v.toInt (limit shift.toInt) is_round := by
  have hbyte := toInt_byte shift
  have hres : ∀ {round r : BitVec 128}, sshl_round native shift is_round = some round →
      sshl_res native v round shift is_round = some r → sshl native v shift is_round = some r := by
    intro round r hround hr
    unfold sshl
    rw [hround]
    exact hr
  by_cases h128 : shift.toInt = -128
  · -- all the bits go out, and a rounding constant stays below the last of them
    rw [limit_of_neg (by omega), h128]
    have hround : ∃ round, sshl_round native shift is_round = some round := by
      unfold sshl_round
      rw [h128]
      cases is_round <;> exact ⟨_, rfl⟩
    obtain ⟨round, hround⟩ := hround
    cases is_round with
    | true =>
      refine ⟨0, hres hround ?_, ?_⟩
      · unfold sshl_res
        rw [if_pos h128]
        rfl
      · rw [scaled, if_neg (by decide), if_pos rfl]
        show (0 : Int) = (v.toInt + 2 ^ 127) / 2 ^ 128
        omega
    | false =>
      refine ⟨v.sshiftRight 127, hres hround ?_, ?_⟩
      · unfold sshl_res
        rw [if_pos h128]
        rfl
      · rw [BitVec.toInt_sshiftRight, Int.shiftRight_eq_div_pow, scaled, if_neg (by decide)]
        show v.toInt / 2 ^ 127 = (v.toInt + 0) / 2 ^ 128
        omega
  by_cases hpos : 0 ≤ shift.toInt
  · -- the product has room in 128 bits
    have hround : sshl_round native shift is_round = some native.INT128_ZERO :=
      if_neg fun h => absurd h.2 (by omega)
    have hlimit := limit_of_nonneg hpos
    have hpow := two_pow_le (show (limit shift.toInt).toNat ≤ 64 by omega)
    have hpos' : (0 : Int) < 2 ^ (limit shift.toInt).toNat := Int.pow_pos (by decide)
    refine ⟨v <<< (limit shift.toInt).toNat, hres hround ?_, ?_⟩
    · unfold sshl_res
      rw [if_neg h128, if_pos hpos]
      exact assert_shift_some _ (by omega) (by omega)
    · rw [toInt_shl (by nlinarith) (by nlinarith), scaled, if_pos (by omega)]
  · obtain ⟨round, hround, hvalue⟩ := sshl_round_value h128 (by omega) is_round
    have hpow := two_pow_le (show (-shift.toInt - 1).toNat ≤ 126 by omega)
    have hpos' : (0 : Int) < 2 ^ (-shift.toInt - 1).toNat := Int.pow_pos (by decide)
    have hbound : 0 ≤ round.toInt ∧ round.toInt ≤ 2 ^ 126 := by
      rw [hvalue]
      split_ifs <;> omega
    refine ⟨(v + round).sshiftRight (-shift.toInt).toNat, hres hround ?_, ?_⟩
    · unfold sshl_res
      rw [if_neg h128, if_neg hpos]
      exact assert_shift_some _ (by omega) (by omega)
    · rw [BitVec.toInt_sshiftRight, toInt_sum (by omega) (by omega), Int.shiftRight_eq_div_pow,
        hvalue, limit_of_neg (by omega), scaled, if_neg hpos]
      norm_cast

theorem toNat_shl {x : BitVec 128} {n : Nat} (h : x.toNat * 2 ^ n < 2 ^ 128) :
    (x <<< n).toNat = x.toNat * 2 ^ n := by
  rw [BitVec.toNat_shiftLeft, Nat.shiftLeft_eq, Nat.mod_eq_of_lt h]

theorem ushl_round_value {shift : BitVec 8} (hneg : shift.toInt < 0) (is_round : Bool) :
    ∃ r : BitVec 128, ushl_round native shift is_round = some r ∧
      r.toNat = if is_round then 2 ^ (-shift.toInt - 1).toNat else 0 := by
  have hbyte := toInt_byte shift
  have hone : (BitVec.setWidth 128 1#64).toNat = 1 := by decide
  cases is_round with
  | false => exact ⟨0, by simp [ushl_round, native], rfl⟩
  | true =>
    have hpow := Nat.pow_le_pow_right (n := 2) (by decide)
      (show (-shift.toInt - 1).toNat ≤ 127 by omega)
    refine ⟨BitVec.setWidth 128 1#64 <<< (-shift.toInt - 1).toNat, ?_, ?_⟩
    · rw [ushl_round, if_pos ⟨rfl, hneg⟩]
      exact assert_shift_some _ (by omega) (by omega)
    · rw [toNat_shl (by rw [hone]; omega), hone, if_pos rfl, Nat.one_mul]

theorem ushl_value (v : BitVec 128) (hv : v.toNat < 2 ^ 64) (shift : BitVec 8) (is_round : Bool) :
    ∃ r : BitVec 128, ushl native v shift is_round = some r ∧
      (r.toNat : Int) = scaled v.toNat (limit shift.toInt) is_round := by
  have hbyte := toInt_byte shift
  have hres : ∀ {round r : BitVec 128}, ushl_round native shift is_round = some round →
      ushl_res native v round shift = some r → ushl native v shift is_round = some r := by
    intro round r hround hr
    unfold ushl
    rw [hround]
    exact hr
  by_cases hpos : 0 ≤ shift.toInt
  · have hround : ushl_round native shift is_round = some native.UINT128_ZERO :=
      if_neg fun h => absurd h.2 (by omega)
    have hlimit := limit_of_nonneg hpos
    have hpow := Nat.pow_le_pow_right (n := 2) (by decide)
      (show (limit shift.toInt).toNat ≤ 64 by omega)
    refine ⟨v <<< (limit shift.toInt).toNat, hres hround ?_, ?_⟩
    · unfold ushl_res
      rw [if_neg (by omega), if_pos hpos]
      exact assert_shift_some _ (by omega) (by omega)
    · rw [toNat_shl (by nlinarith), scaled, if_pos (by omega)]
      norm_cast
  · have hneg : shift.toInt < 0 := by omega
    obtain ⟨round, hround, hvalue⟩ := ushl_round_value hneg is_round
    have hpow := Nat.pow_le_pow_right (n := 2) (by decide)
      (show (-shift.toInt - 1).toNat ≤ 127 by omega)
    have hbound : round.toNat ≤ 2 ^ 127 := by
      rw [hvalue]
      split_ifs <;> omega
    have hsum : (v + round).toNat = v.toNat + round.toNat := by
      rw [BitVec.toNat_add, Nat.mod_eq_of_lt (by omega)]
    rw [limit_of_neg (by omega), scaled, if_neg hpos]
    by_cases h128 : shift.toInt = -128
    · -- all the bits go out
      refine ⟨0, hres hround ?_, ?_⟩
      · unfold ushl_res
        rw [if_pos h128]
        rfl
      · rw [h128]
        show (0 : Int) = (v.toNat + if is_round then 2 ^ 127 else 0) / 2 ^ 128
        split_ifs <;> omega
    · refine ⟨(v + round) >>> (-shift.toInt).toNat, hres hround ?_, ?_⟩
      · unfold ushl_res
        rw [if_neg h128, if_neg hpos]
        exact assert_shift_some _ (by omega) (by omega)
      · rw [BitVec.toNat_ushiftRight, Nat.shiftRight_eq_div_pow, hsum, hvalue]
        cases is_round <;> norm_cast

/-! ## Saturations to the lanes -/

/-- A number that fits keeps its value in fewer bits. -/
theorem toInt_setWidth_of_fits {w size : Nat} (x : BitVec w) (hpos : 0 < size) (hsize : size ≤ w)
    (hlo : -2 ^ (size - 1) ≤ x.toInt) (hhi : x.toInt < 2 ^ (size - 1)) :
    (x.setWidth size).toInt = x.toInt := by
  have hdvd : 2 ^ size ∣ 2 ^ w := Nat.pow_dvd_pow 2 hsize
  rw [BitVec.toInt_setWidth, ← Int.bmod_bmod_of_dvd hdvd, ← BitVec.toInt_eq_toNat_bmod,
    ← BitVec.toInt_ofInt, BitVec.toInt_ofInt_eq_self hpos hlo hhi]

theorem toNat_of_nonneg {w : Nat} {x : BitVec w} (h : 0 ≤ x.toInt) : (x.toNat : Int) = x.toInt := by
  have hlt := x.isLt
  rw [BitVec.toInt_eq_toNat_cond] at h ⊢
  split_ifs at h ⊢ <;> omega

section saturations

variable {size : Nat} (fpscr : BitVec 32)

theorem ssat_clamped {max min : Int} (op : BitVec 64) (hpos : 0 < size) (hsize : size ≤ 64)
    (hmin : -2 ^ (size - 1) ≤ min) (hle : min ≤ max) (hmax : max < 2 ^ (size - 1)) :
    Clamped min max op.toInt fpscr (ssat size max min fpscr op).1.toInt
      (ssat size max min fpscr op).2 := by
  unfold ssat
  apply clamped_cases hle
  · intro h
    rw [if_pos h]
    exact ⟨BitVec.toInt_ofInt_eq_self hpos (by omega) hmax, rfl⟩
  · intro h h'
    rw [if_neg h, if_pos h']
    exact ⟨BitVec.toInt_ofInt_eq_self hpos hmin (by omega), rfl⟩
  · intro h h'
    rw [if_neg h, if_neg h']
    exact ⟨toInt_setWidth_of_fits op hpos hsize (by omega) (by omega), rfl⟩

theorem usat_clamped {max : Int} (op : BitVec 64) (hsize : size < 64) (hle : 0 ≤ max)
    (hmax : max < 2 ^ size) :
    Clamped 0 max op.toInt fpscr (usat size max fpscr op).1.toNat (usat size max fpscr op).2 := by
  have hpow : (2 : Int) ^ size ≤ 2 ^ 63 := two_pow_le (by omega)
  unfold usat
  apply clamped_cases hle
  · intro h
    rw [if_pos h]
    refine ⟨?_, rfl⟩
    rw [BitVec.toNat_ofInt, Int.toNat_of_nonneg (Int.emod_nonneg _ (by simp))]
    exact Int.emod_eq_of_lt hle (by exact_mod_cast hmax)
  · intro h h'
    rw [if_neg h, if_pos h']
    exact ⟨by simp, rfl⟩
  · intro h h'
    rw [if_neg h, if_neg h']
    have hnat := toNat_of_nonneg (Int.not_lt.mp h')
    refine ⟨?_, rfl⟩
    rw [BitVec.toNat_setWidth, Nat.mod_eq_of_lt (by zify; omega), hnat]

theorem usat_u_clamped {max : Nat} (op : BitVec 64) (hmax : max < 2 ^ size) :
    Clamped 0 max op.toNat fpscr (usat_u size max fpscr op).1.toNat (usat_u size max fpscr op).2 := by
  unfold usat_u
  apply clamped_cases (by omega)
  · intro h
    rw [if_pos (by omega)]
    simp [Nat.mod_eq_of_lt hmax]
  · intro _ h
    omega
  · intro h _
    rw [if_neg (by omega)]
    simp [Nat.mod_eq_of_lt (show op.toNat < 2 ^ size by omega)]

/-- The integers of the compiler compare as integers. -/
theorem native_gt (op1 op2 : BitVec 128) :
    native.int128_gt op1 op2 = true ↔ op2.toInt < op1.toInt := BitVec.slt_iff_toInt_lt

theorem ssat64_clamped (op : BitVec 128) : Clamped (-2 ^ 63) (2 ^ 63 - 1) op.toInt fpscr
    (ssat64 native fpscr op).1.toInt (ssat64 native fpscr op).2 := by
  have hmax : (0x7fffffffffffffff : BitVec 128).toInt = 2 ^ 63 - 1 := by decide
  have hmin : (-0x7fffffffffffffff - 1 : BitVec 128).toInt = -2 ^ 63 := by decide
  have habove : native.int128_gt op native.INT128_INT64_MAX = true ↔ 2 ^ 63 - 1 < op.toInt := by
    rw [← hmax]
    exact native_gt op _
  have hbelow : native.int128_gt native.INT128_INT64_MIN op = true ↔ op.toInt < -2 ^ 63 := by
    rw [← hmin]
    exact native_gt _ op
  unfold ssat64
  apply clamped_cases (by decide)
  · intro h
    rw [if_pos (habove.mpr h)]
    exact ⟨rfl, rfl⟩
  · intro h h'
    rw [if_neg (mt habove.mp h), if_pos (hbelow.mpr h')]
    exact ⟨rfl, rfl⟩
  · intro h h'
    rw [if_neg (mt habove.mp h), if_neg (mt hbelow.mp h')]
    exact ⟨toInt_setWidth_of_fits op (by decide) (by decide) (by omega) (by omega), rfl⟩

theorem usat64_clamped (op : BitVec 128) : Clamped 0 (2 ^ 64 - 1) op.toInt fpscr
    (usat64 native fpscr op).1.toNat (usat64 native fpscr op).2 := by
  have hmax : (0xffffffffffffffff : BitVec 128).toInt = 2 ^ 64 - 1 := by decide
  have habove : native.int128_gt op native.INT128_UINT64_MAX = true ↔ 2 ^ 64 - 1 < op.toInt := by
    rw [← hmax]
    exact native_gt op _
  have hbelow : native.int128_gt native.INT128_ZERO op = true ↔ op.toInt < 0 :=
    native_gt 0 op
  unfold usat64
  apply clamped_cases (by decide)
  · intro h
    rw [if_pos (habove.mpr h)]
    exact ⟨rfl, rfl⟩
  · intro h h'
    rw [if_neg (mt habove.mp h), if_pos (hbelow.mpr h')]
    exact ⟨rfl, rfl⟩
  · intro h h'
    rw [if_neg (mt habove.mp h), if_neg (mt hbelow.mp h')]
    have hnat := toNat_of_nonneg (Int.not_lt.mp h')
    have hmod : op.toNat % 2 ^ 64 = op.toNat := Nat.mod_eq_of_lt (by omega)
    exact ⟨(congrArg Int.ofNat ((BitVec.toNat_setWidth ..).trans hmod)).trans hnat, rfl⟩

theorem usat64_u_clamped (op : BitVec 128) : Clamped 0 (2 ^ 64 - 1) op.toNat fpscr
    (usat64_u native fpscr op).1.toNat (usat64_u native fpscr op).2 := by
  have habove : native.uint128_gt op native.UINT128_UINT64_MAX = true ↔ 2 ^ 64 - 1 < op.toNat := by
    show BitVec.ult 0xffffffffffffffff#128 op = true ↔ _
    rw [BitVec.ult, decide_eq_true_iff]
    rfl
  unfold usat64_u
  apply clamped_cases (by decide)
  · intro h
    rw [if_pos (habove.mpr (by omega))]
    exact ⟨rfl, rfl⟩
  · intro _ h
    omega
  · intro h _
    rw [if_neg (mt habove.mp (by omega))]
    have hmod : op.toNat % 2 ^ 64 = op.toNat := Nat.mod_eq_of_lt (by omega)
    exact ⟨congrArg Int.ofNat ((BitVec.toNat_setWidth ..).trans hmod), rfl⟩

end saturations

/-! ## The lanes -/

/-- Shifts by more than 64 to the left clamp as that by 64 does. -/
theorem Clamped.unlimited {lo hi x shift got : Int} {is_round : Bool} {fpscr fpscr' : BitVec 32}
    (h : Clamped lo hi (scaled x (limit shift) is_round) fpscr got fpscr') (hle : lo ≤ hi)
    (hlo : -2 ^ 64 < lo) (hhi : hi < 2 ^ 64) :
    Clamped lo hi (scaled x shift is_round) fpscr got fpscr' := by
  by_cases hbig : 64 < shift
  · have hlimit : limit shift = 64 := if_pos hbig
    have h64 : scaled x 64 is_round = x * 2 ^ 64 := if_pos (by decide)
    have hscaled : scaled x shift is_round = x * 2 ^ shift.toNat := if_pos (by omega)
    have hpow := two_pow_le (show 64 ≤ shift.toNat by omega)
    rw [hlimit, h64] at h
    apply h.same hle
    rw [hscaled]
    obtain hx | rfl | hx := lt_trichotomy x 0
    · exact .inr (.inr ⟨by omega, by nlinarith⟩)
    · exact .inl (by simp)
    · exact .inr (.inl ⟨by omega, by nlinarith⟩)
  · have hlimit : limit shift = shift := if_neg hbig
    rwa [hlimit] at h

section lanes

variable {size : lane_size} (fpscr : BitVec 32)

theorem ssat_lane_clamped (op : BitVec 64) : (size : lane_size) →
    Clamped (-2 ^ (size.bits - 1)) (2 ^ (size.bits - 1) - 1) op.toInt fpscr
      (ssat_lane fpscr op size).1.toInt (ssat_lane fpscr op size).2
  | .s8 => ssat_clamped fpscr op (by decide) (by decide) (by decide) (by decide) (by decide)
  | .s16 => ssat_clamped fpscr op (by decide) (by decide) (by decide) (by decide) (by decide)
  | .s32 => ssat_clamped fpscr op (by decide) (by decide) (by decide) (by decide) (by decide)
  | .s64 => by
    have hlo := BitVec.le_toInt op
    have hhi : op.toInt < 2 ^ (64 - 1) := BitVec.toInt_lt
    exact clamped_cases (by decide) (fun h => absurd h (by show ¬ (2 ^ 63 - 1 : Int) < _; omega))
      (fun _ h => absurd h (by show ¬ op.toInt < (-2 ^ 63 : Int); omega)) fun _ _ => ⟨rfl, rfl⟩

theorem usat_lane_clamped (op : BitVec 64) : (size : lane_size) →
    Clamped 0 (2 ^ size.bits - 1) op.toNat fpscr (usat_lane native fpscr op size).1.toNat
      (usat_lane native fpscr op size).2
  | .s8 => usat_u_clamped fpscr op (by decide)
  | .s16 => usat_u_clamped fpscr op (by decide)
  | .s32 => usat_u_clamped fpscr op (by decide)
  | .s64 => by
    have h := usat64_u_clamped fpscr (op.setWidth 128)
    rwa [BitVec.toNat_setWidth_of_le (by decide)] at h

theorem lane_bits (size : lane_size) : 0 < size.bits ∧ size.bits ≤ 64 := by
  cases size <;> decide

/-- The shift of a signed lane. -/
theorem sshl_lane_value (x : BitVec size.bits) (shift : BitVec 8) (is_rounding : Bool) :
    ∃ r : BitVec 128, sshl native ((x.signExtend 64).signExtend 128) shift is_rounding = some r ∧
      r.toInt = scaled x.toInt (limit shift.toInt) is_rounding := by
  have hbits := (lane_bits size).2
  have hpow := two_pow_le (show size.bits - 1 ≤ 63 by omega)
  have hwide : ((x.signExtend 64).signExtend 128).toInt = x.toInt := by
    rw [BitVec.toInt_signExtend_of_le (by decide), BitVec.toInt_signExtend_of_le hbits]
  have hlo := BitVec.le_toInt x
  have hhi : x.toInt < 2 ^ (size.bits - 1) := BitVec.toInt_lt
  rw [← hwide]
  exact sshl_value _ (by omega) (by omega) shift is_rounding

theorem vqshl_signed_clamped (x : BitVec size.bits) (shift : BitVec 8) (is_rounding : Bool) :
    ∃ r fpscr', vqshl_signed native x shift is_rounding fpscr = some (r, fpscr') ∧
      Clamped (-2 ^ (size.bits - 1)) (2 ^ (size.bits - 1) - 1)
        (scaled x.toInt shift.toInt is_rounding) fpscr r.toInt fpscr' := by
  have hbits := (lane_bits size).2
  have hpow := two_pow_le (show size.bits - 1 ≤ 63 by omega)
  have hone : (0 : Int) < 2 ^ (size.bits - 1) := Int.pow_pos (by decide)
  obtain ⟨res, hres, hvalue⟩ := sshl_lane_value x shift is_rounding
  -- the clamp to 64 bits, and in it that to the lane
  have h64 := ssat64_clamped fpscr res
  have hlane := ssat_lane_clamped (ssat64 native fpscr res).2
    (ssat64 native fpscr res).1 size
  have hboth := h64.trans hlane (by omega) (by omega) (by omega)
  rw [hvalue] at hboth
  refine ⟨_, _, ?_, hboth.unlimited (by omega) (by omega) (by omega)⟩
  show (sshl native ((x.signExtend 64).signExtend 128) shift is_rounding).bind _ = _
  rw [hres]
  rfl

theorem usat_signed_lane_clamped (op : BitVec 128) : (size : lane_size) →
    Clamped 0 (2 ^ size.bits - 1) op.toInt fpscr (usat_signed_lane native fpscr op size).1.toNat
      (usat_signed_lane native fpscr op size).2
  | .s8 => (ssat64_clamped fpscr op).trans (usat_clamped _ _ (by decide) (by decide) (by decide))
      (by decide) (by decide) (by decide)
  | .s16 => (ssat64_clamped fpscr op).trans (usat_clamped _ _ (by decide) (by decide) (by decide))
      (by decide) (by decide) (by decide)
  | .s32 => (ssat64_clamped fpscr op).trans (usat_clamped _ _ (by decide) (by decide) (by decide))
      (by decide) (by decide) (by decide)
  | .s64 => usat64_clamped fpscr op

theorem sshl_usat_clamped (x : BitVec size.bits) (shift : BitVec 8) (is_rounding : Bool) :
    ∃ r fpscr', sshl_usat native x shift is_rounding fpscr = some (r, fpscr') ∧
      Clamped 0 (2 ^ size.bits - 1) (scaled x.toInt shift.toInt is_rounding) fpscr r.toNat fpscr' := by
  obtain ⟨hpos, hbits⟩ := lane_bits size
  have hpow := two_pow_le hbits
  have hone : (0 : Int) < 2 ^ size.bits := Int.pow_pos (by decide)
  obtain ⟨res, hres, hvalue⟩ := sshl_lane_value x shift is_rounding
  have hlane := usat_signed_lane_clamped fpscr res size
  rw [hvalue] at hlane
  refine ⟨_, _, ?_, hlane.unlimited (by omega) (by omega) (by omega)⟩
  show (sshl native ((x.signExtend 64).signExtend 128) shift is_rounding).bind _ = _
  rw [hres]
  rfl

theorem vqshl_unsigned_clamped (x : BitVec size.bits) (shift : BitVec 8) (is_rounding : Bool) :
    ∃ r fpscr', vqshl_unsigned native x shift is_rounding fpscr = some (r, fpscr') ∧
      Clamped 0 (2 ^ size.bits - 1) (scaled x.toNat shift.toInt is_rounding) fpscr r.toNat fpscr' := by
  obtain ⟨hpos, hbits⟩ := lane_bits size
  have hpow := two_pow_le hbits
  have hone : (0 : Int) < 2 ^ size.bits := Int.pow_pos (by decide)
  have hwide : ((x.setWidth 64).setWidth 128).toNat = x.toNat := by
    rw [BitVec.toNat_setWidth_of_le (by decide), BitVec.toNat_setWidth_of_le hbits]
  have hlt : x.toNat < 2 ^ 64 := x.isLt.trans_le (Nat.pow_le_pow_right (by decide) hbits)
  obtain ⟨res, hres, hvalue⟩ := ushl_value ((x.setWidth 64).setWidth 128) (by omega) shift is_rounding
  have h64 := usat64_u_clamped fpscr res
  have hlane := usat_lane_clamped (usat64_u native fpscr res).2
    (usat64_u native fpscr res).1 size
  have hboth := h64.trans hlane (by omega) (by omega) (by omega)
  rw [hvalue, hwide] at hboth
  refine ⟨_, _, ?_, hboth.unlimited (by omega) (by omega) (by omega)⟩
  show (ushl native ((x.setWidth 64).setWidth 128) shift is_rounding).bind _ = _
  rw [hres]
  rfl

end lanes

/-- The two kinds of 128-bit integers that the file is compiled with. -/
inductive int128_kind where
  | native
  | software (undef : BitVec 64 → BitVec 64)

def int128_kind.ops : int128_kind → int128_ops
  | .native => Arm.native
  | .software undef => Arm.software undef

theorem int128_kind.represents : (kind : int128_kind) →
    ∃ s u, kind.ops.Represents s u
  | .native => ⟨_, _, native_represents⟩
  | .software undef => ⟨_, _, software_represents undef⟩

/-- A shift with its saturation is the clamp of the scaled value, and QC is set when the clamp changes
    the value: from signed lanes to signed and to unsigned ones, and from unsigned lanes. -/
theorem vector_shift_saturates (kind : int128_kind) {size : lane_size} (x : BitVec size.bits)
    (shift : BitVec 8) (is_rounding : Bool) (fpscr : BitVec 32) :
    (∃ r fpscr', vqshl_signed kind.ops x shift is_rounding fpscr = some (r, fpscr') ∧
      Clamped (-2 ^ (size.bits - 1)) (2 ^ (size.bits - 1) - 1)
        (scaled x.toInt shift.toInt is_rounding) fpscr r.toInt fpscr') ∧
    (∃ r fpscr', sshl_usat kind.ops x shift is_rounding fpscr = some (r, fpscr') ∧
      Clamped 0 (2 ^ size.bits - 1) (scaled x.toInt shift.toInt is_rounding) fpscr r.toNat fpscr') ∧
    ∃ r fpscr', vqshl_unsigned kind.ops x shift is_rounding fpscr = some (r, fpscr') ∧
      Clamped 0 (2 ^ size.bits - 1) (scaled x.toNat shift.toInt is_rounding) fpscr r.toNat fpscr' := by
  obtain ⟨s, u, h⟩ := kind.represents
  rw [vqshl_signed_native h, sshl_usat_native h, vqshl_unsigned_native h]
  exact ⟨vqshl_signed_clamped fpscr x shift is_rounding, sshl_usat_clamped fpscr x shift is_rounding,
    vqshl_unsigned_clamped fpscr x shift is_rounding⟩

end Umeq.Arm
