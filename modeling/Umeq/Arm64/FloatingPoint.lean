import Umeq.Lib.Runs
import Umeq.Fpu.MulAdd
import Umeq.Fpu.Compare
import Umeq.Fpu.FromInteger
import Umeq.Fpu.RoundToInt

/-! # FPCR and FPSR

    The status of softfloat stands for both registers of the guest, with what it has no room for in
    `fpcr_others` and `qc`. Arithmetic on numbers may be left to the host: only while the guest asks
    for nothing but the default of FPCR, and then the exceptions stay in the host's environment.

    * `Faithful`: what the state has to do with the value of FPCR.
    * `Kept`, `exec_spec`: what arithmetic leaves of both registers, and what one instruction makes of them.
    * `float_registers_followed`: every run.
-/

namespace Umeq.Arm64

open Umeq.Fpu Rounding Runs

/-! ## The registers -/

inductive rm where
  | RM_TIEEVEN | RM_POSINF | RM_NEGINF | RM_ZERO | RM_TIEAWAY | RM_ODD
  deriving DecidableEq, Repr

/-- The number of a mode. -/
def rm.val : rm → BitVec 32
  | .RM_TIEEVEN => 0
  | .RM_POSINF => 1
  | .RM_NEGINF => 2
  | .RM_ZERO => 3
  | .RM_TIEAWAY => 4
  | .RM_ODD => 5

/-- The mode of a number; others fail where they are used, as RM_ODD does. -/
def rm.of (value : BitVec 32) : rm :=
  if value = 0 then .RM_TIEEVEN
  else if value = 1 then .RM_POSINF
  else if value = 2 then .RM_NEGINF
  else if value = 3 then .RM_ZERO
  else if value = 4 then .RM_TIEAWAY
  else .RM_ODD

def softfloat_rm_to_arm64_rm : Mode → rm
  | .nearest_even => .RM_TIEEVEN
  | .down => .RM_NEGINF
  | .up => .RM_POSINF
  | .to_zero => .RM_ZERO
  | .ties_away => .RM_TIEAWAY

/-- RM_ODD fails an assertion. -/
def arm64_rm_to_softfloat_rm : rm → Option Mode
  | .RM_TIEEVEN => some .nearest_even
  | .RM_POSINF => some .up
  | .RM_NEGINF => some .down
  | .RM_ZERO => some .to_zero
  | .RM_TIEAWAY => some .ties_away
  | .RM_ODD => none

def ARM64_FPSR_IOC : BitVec 32 := 1
def ARM64_FPSR_DZC : BitVec 32 := 2
def ARM64_FPSR_OFC : BitVec 32 := 4
def ARM64_FPSR_UFC : BitVec 32 := 8
def ARM64_FPSR_IXC : BitVec 32 := 16
def ARM64_FPSR_IDC : BitVec 32 := 128

/-- `bit` if `c` holds. -/
def bit_if {w : ℕ} (c : Prop) [Decidable c] (bit : BitVec w) : BitVec w := if c then bit else 0

/-- The exceptions of the host that `fetestexcept` tells. -/
structure host_exceptions where
  divbyzero : Bool
  inexact : Bool
  invalid : Bool
  overflow : Bool
  underflow : Bool
  deriving DecidableEq, Repr

def feclearexcept : host_exceptions := ⟨false, false, false, false, false⟩

def host_exceptions.raise (h more : host_exceptions) : host_exceptions :=
  ⟨h.divbyzero || more.divbyzero, h.inexact || more.inexact, h.invalid || more.invalid,
    h.overflow || more.overflow, h.underflow || more.underflow⟩

structure float_registers where
  fp_status : float_status
  fpcr_others : BitVec 32
  qc : BitVec 32
  fast_math_is_allow : Bool
  /-- The environment of the host. -/
  host : host_exceptions
  deriving DecidableEq, Repr

def softfloat_to_arm64_fpsr (fp_status : float_status) (qc : BitVec 32) : BitVec 32 :=
  let exceptions := fp_status.float_exception_flags
  qc ||| bit_if (exceptions &&& float_flag_input_denormal ≠ 0) ARM64_FPSR_IDC
    ||| bit_if (exceptions &&& float_flag_inexact ≠ 0) ARM64_FPSR_IXC
    ||| bit_if (exceptions &&& (float_flag_underflow ||| float_flag_output_denormal) ≠ 0) ARM64_FPSR_UFC
    ||| bit_if (exceptions &&& float_flag_overflow ≠ 0) ARM64_FPSR_OFC
    ||| bit_if (exceptions &&& float_flag_divbyzero ≠ 0) ARM64_FPSR_DZC
    ||| bit_if (exceptions &&& float_flag_invalid ≠ 0) ARM64_FPSR_IOC

def softfloat_to_arm64_cpsr (fp_status : float_status) (fpcr_others : BitVec 32) : BitVec 32 :=
  bit_if (fp_status.default_nan_mode = true) (1#32 <<< 25)
    ||| bit_if (fp_status.flush_to_zero = true) (1#32 <<< 24)
    ||| (((softfloat_rm_to_arm64_rm fp_status.float_rounding_mode).val <<< 22) &&& (3#32 <<< 22))
    ||| fpcr_others

def arm64_hlp_write_fpsr (regs : float_registers) (value : BitVec 32) : float_registers :=
  let exceptions := bit_if (value &&& ARM64_FPSR_IDC ≠ 0) float_flag_input_denormal
    ||| bit_if (value &&& ARM64_FPSR_IXC ≠ 0) float_flag_inexact
    ||| bit_if (value &&& ARM64_FPSR_UFC ≠ 0) float_flag_underflow
    ||| bit_if (value &&& ARM64_FPSR_OFC ≠ 0) float_flag_overflow
    ||| bit_if (value &&& ARM64_FPSR_DZC ≠ 0) float_flag_divbyzero
    ||| bit_if (value &&& ARM64_FPSR_IOC ≠ 0) float_flag_invalid
  { regs with
    qc := value &&& 0x08000000
    fp_status := { regs.fp_status with float_exception_flags := exceptions }
    host := feclearexcept }

def arm64_exceptions_from_host (h : host_exceptions) : BitVec 32 :=
  bit_if (h.divbyzero = true) ARM64_FPSR_DZC ||| bit_if (h.inexact = true) ARM64_FPSR_IXC
    ||| bit_if (h.invalid = true) ARM64_FPSR_IOC ||| bit_if (h.overflow = true) ARM64_FPSR_OFC
    ||| bit_if (h.underflow = true) ARM64_FPSR_UFC

def arm64_hlp_read_fpsr (regs : float_registers) : BitVec 32 :=
  softfloat_to_arm64_fpsr regs.fp_status regs.qc ||| arm64_exceptions_from_host regs.host

def arm64_hlp_write_fpcr (regs : float_registers) (value : BitVec 32) : Option float_registers :=
  (arm64_rm_to_softfloat_rm (rm.of ((value >>> 22) &&& 3))).map fun mode =>
    let fp_status := { regs.fp_status with
      default_nan_mode := (value >>> 25) &&& 1 != 0
      flush_to_zero := (value >>> 24) &&& 1 != 0
      flush_inputs_to_zero := (value >>> 24) &&& 1 != 0
      float_rounding_mode := mode }
    { regs with
      fp_status := fp_status
      fast_math_is_allow :=
        !(fp_status.default_nan_mode || fp_status.flush_to_zero || fp_status.float_rounding_mode != .nearest_even)
      fpcr_others := value &&& 0x04009f00 }

def arm64_hlp_read_fpcr (regs : float_registers) : BitVec 32 :=
  softfloat_to_arm64_cpsr regs.fp_status regs.fpcr_others

def set_qc (regs : float_registers) : float_registers := { regs with qc := 1#32 <<< 27 }

/-- What a main thread starts with, and what the host has raised before. -/
def float_init (host : host_exceptions) : float_registers := ⟨initial_status, 0, 0, true, host⟩

/-! ## Arithmetic -/

/-- A result with the state after it. -/
abbrev result := ℕ × float_registers

def is_not_nan_or_infinite (F : float_format) (a : ℕ) : Bool :=
  a &&& (F.exp_max <<< F.frac_bits) != F.exp_max <<< F.frac_bits

/-- A function of softfloat, on the status of the guest. -/
def float_registers.with_status (regs : float_registers) (z : ℕ × float_status) : result :=
  (z.1, { regs with fp_status := z.2 })

/-- The host's answer is used, or the function of softfloat. -/
def fast_math (F : float_format) (a b : ℕ) (host : ℕ × host_exceptions) (z : ℕ × float_status)
    (regs : float_registers) : result :=
  if regs.fast_math_is_allow && is_not_nan_or_infinite F a && is_not_nan_or_infinite F b then
    (host.1, { regs with host := regs.host.raise host.2 })
  else regs.with_status z

/-- `fadd32` and `fadd64`. -/
def fadd (F : float_format) (a b : ℕ) (host : ℕ × host_exceptions) (regs : float_registers) : result :=
  fast_math F a b host (float_add F a b regs.fp_status) regs

def fsub (F : float_format) (a b : ℕ) (host : ℕ × host_exceptions) (regs : float_registers) : result :=
  fast_math F a b host (float_sub F a b regs.fp_status) regs

def fmul (F : float_format) (a b : ℕ) (host : ℕ × host_exceptions) (regs : float_registers) : result :=
  fast_math F a b host (float_mul F a b regs.fp_status) regs

def fdiv (fuel : ℕ) (F : float_format) (a b : ℕ) (regs : float_registers) : Option result :=
  (float_div fuel F a b regs.fp_status).map regs.with_status

def fmadd (F : float_format) (a b acc : ℕ) (regs : float_registers) : result :=
  regs.with_status (float_muladd F a b acc 0 regs.fp_status)

/-- `fmax32` and `fmax64`. -/
def fmax (F : float_format) (a b : ℕ) (regs : float_registers) : result :=
  regs.with_status (float_max F a b regs.fp_status)

def fmin (F : float_format) (a b : ℕ) (regs : float_registers) : result :=
  regs.with_status (float_min F a b regs.fp_status)

def fmaxnm (F : float_format) (a b : ℕ) (regs : float_registers) : result :=
  regs.with_status (float_maxnum F a b regs.fp_status)

def fminnm (F : float_format) (a b : ℕ) (regs : float_registers) : result :=
  regs.with_status (float_minnum F a b regs.fp_status)

/-- `fcmp32` and `fcmp64`: the four flags. -/
def fcmp (F : float_format) (a b : ℕ) (is_quiet : Bool) (regs : float_registers) : result :=
  let z := if is_quiet then float_compare_quiet F a b regs.fp_status else float_compare F a b regs.fp_status
  regs.with_status (if z.1 = float_relation_less then 8 else if z.1 = float_relation_equal then 6
    else if z.1 = float_relation_greater then 2 else 3, z.2)

/-- `arm64_hlp_dirty_scvtf_scalar_integer_simd`: the number of an X or a W register. -/
def scvtf (sf : Bool) (F : float_format) (r : BitVec 64) (regs : float_registers) : result :=
  regs.with_status (match sf, F with
    | false, .float32 => int32_to_float32 (r.setWidth 32) regs.fp_status
    | false, .float64 => int32_to_float64 (r.setWidth 32) regs.fp_status
    | true, .float32 => int64_to_float32 r regs.fp_status
    | true, .float64 => int64_to_float64 r regs.fp_status)

/-- The mode is the one of the instruction, and inexact is not raised. -/
def dis_frint (F : float_format) (a : ℕ) (rmode : rm) (regs : float_registers) : Option result :=
  (arm64_rm_to_softfloat_rm rmode).map fun mode =>
    let old_flags := regs.fp_status.float_exception_flags
    let z := float_round_to_int F a { regs.fp_status with float_rounding_mode := mode }
    let new_flags := if old_flags &&& float_flag_inexact = 0 then z.2.float_exception_flags &&& ~~~float_flag_inexact
      else z.2.float_exception_flags
    regs.with_status (z.1, { z.2 with
      float_exception_flags := new_flags
      float_rounding_mode := regs.fp_status.float_rounding_mode })

/-- `dis_fcvts_scalar_integer` and `dis_fcvtu_scalar_integer`: a NaN becomes a zero. -/
def dis_fcvt_scalar_integer (T : integer_type) (F : float_format) (a : ℕ) (rmode : rm) (regs : float_registers) :
    Option result :=
  (arm64_rm_to_softfloat_rm rmode).map fun mode =>
    let fp_status := { regs.fp_status with float_rounding_mode := mode }
    let z := if float_is_any_nan F a then (0, float_raise float_flag_invalid fp_status) else T.convert F a fp_status
    let width := match T with
      | .int32 | .uint32 => 32
      | .int64 | .uint64 => 64
    regs.with_status ((z.1 % 2 ^ width).toNat, { z.2 with float_rounding_mode := regs.fp_status.float_rounding_mode })

def dis_frintx (F : float_format) (a : ℕ) (regs : float_registers) : result :=
  regs.with_status (float_round_to_int F a regs.fp_status)

def dis_frinti (F : float_format) (a : ℕ) (regs : float_registers) : Option result :=
  dis_frint F a (softfloat_rm_to_arm64_rm regs.fp_status.float_rounding_mode) regs

/-- What an instruction does to the registers; the host's answer to it is part of it. -/
inductive float_insn where
  | msr_fpcr (value : BitVec 32)
  | msr_fpsr (value : BitVec 32)
  | saturated
  | fadd (F : float_format) (a b : ℕ) (host : ℕ × host_exceptions)
  | fsub (F : float_format) (a b : ℕ) (host : ℕ × host_exceptions)
  | fmul (F : float_format) (a b : ℕ) (host : ℕ × host_exceptions)
  | fdiv (F : float_format) (a b : ℕ)
  | fmadd (F : float_format) (a b acc : ℕ)
  | fmax (F : float_format) (a b : ℕ)
  | fmin (F : float_format) (a b : ℕ)
  | fmaxnm (F : float_format) (a b : ℕ)
  | fminnm (F : float_format) (a b : ℕ)
  | fcmp (F : float_format) (a b : ℕ) (is_quiet : Bool)
  | scvtf (sf : Bool) (F : float_format) (r : BitVec 64)
  | frint (F : float_format) (a : ℕ) (rmode : rm)
  | fcvt (T : integer_type) (F : float_format) (a : ℕ) (rmode : rm)
  | frintx (F : float_format) (a : ℕ)
  | frinti (F : float_format) (a : ℕ)

def float_insn.exec (fuel : ℕ) (regs : float_registers) : float_insn → Option float_registers
  | .msr_fpcr value => arm64_hlp_write_fpcr regs value
  | .msr_fpsr value => some (arm64_hlp_write_fpsr regs value)
  | .saturated => some (set_qc regs)
  | .fadd F a b host => some (Arm64.fadd F a b host regs).2
  | .fsub F a b host => some (Arm64.fsub F a b host regs).2
  | .fmul F a b host => some (Arm64.fmul F a b host regs).2
  | .fdiv F a b => (Arm64.fdiv fuel F a b regs).map (·.2)
  | .fmadd F a b acc => some (Arm64.fmadd F a b acc regs).2
  | .fmax F a b => some (Arm64.fmax F a b regs).2
  | .fmin F a b => some (Arm64.fmin F a b regs).2
  | .fmaxnm F a b => some (Arm64.fmaxnm F a b regs).2
  | .fminnm F a b => some (Arm64.fminnm F a b regs).2
  | .fcmp F a b is_quiet => some (Arm64.fcmp F a b is_quiet regs).2
  | .scvtf sf F r => some (Arm64.scvtf sf F r regs).2
  | .frint F a rmode => (dis_frint F a rmode regs).map (·.2)
  | .fcvt T F a rmode => (dis_fcvt_scalar_integer T F a rmode regs).map (·.2)
  | .frintx F a => some (dis_frintx F a regs).2
  | .frinti F a => (dis_frinti F a regs).map (·.2)

/-- Operands are words, and no instruction rounds to odd. -/
def float_insn.Encoded : float_insn → Prop
  | .msr_fpcr _ | .msr_fpsr _ | .saturated | .scvtf _ _ _ => True
  | .fadd F a b _ | .fsub F a b _ | .fmul F a b _ | .fdiv F a b | .fmax F a b | .fmin F a b | .fmaxnm F a b
  | .fminnm F a b | .fcmp F a b _ => a < 2 ^ F.width ∧ b < 2 ^ F.width
  | .fmadd F a b acc => a < 2 ^ F.width ∧ b < 2 ^ F.width ∧ acc < 2 ^ F.width
  | .frint F a rmode | .fcvt _ F a rmode => a < 2 ^ F.width ∧ rmode ≠ .RM_ODD
  | .frintx F a | .frinti F a => a < 2 ^ F.width

def float_system (fuel : ℕ) (host : host_exceptions) : System float_registers float_insn :=
  ⟨float_init host, fun regs i => i.exec fuel regs⟩

/-! ## Bits -/

section bits

variable {w : ℕ} {x y z : BitVec w}

/-- All bits of `x` are in `y`. -/
def Within (x y : BitVec w) : Prop := x ||| y = y

instance : Decidable (Within x y) := inferInstanceAs (Decidable (_ = _))

theorem Within.refl (x : BitVec w) : Within x x := BitVec.or_self

theorem Within.trans (h : Within x y) (h' : Within y z) : Within x z := by
  rw [Within, ← h', ← BitVec.or_assoc, h]

theorem Within.left (x y : BitVec w) : Within x (x ||| y) := by
  rw [Within, ← BitVec.or_assoc, BitVec.or_self]

/-- Bits of two kinds are kept if those of each kind are. -/
theorem Within.or {x' y' : BitVec w} (h : Within x y) (h' : Within x' y') : Within (x ||| x') (y ||| y') := by
  have hswap : x ||| x' ||| (y ||| y') = (x ||| y) ||| (x' ||| y') := by ac_rfl
  rw [Within, hswap, h, h']

theorem Within.union (h : Within x z) (h' : Within y z) : Within (x ||| y) z := by
  have hboth := h.or h'
  rwa [BitVec.or_self] at hboth

theorem Within.bit_if {c d : Prop} [Decidable c] [Decidable d] (h : c → d) (b : BitVec w) :
    Within (bit_if c b) (bit_if d b) := by
  by_cases hc : c
  · simp only [Arm64.bit_if, if_pos hc, if_pos (h hc), Within, BitVec.or_self]
  · simp [Arm64.bit_if, if_neg hc, Within]

theorem Within.bit (c : Prop) [Decidable c] (b : BitVec w) : Within (Arm64.bit_if c b) b := by
  by_cases hc : c <;> simp [Arm64.bit_if, hc, Within]

theorem Within.mask (x y : BitVec w) : Within (x &&& y) y := by
  apply BitVec.eq_of_getElem_eq
  intro i hi
  rw [BitVec.getElem_or, BitVec.getElem_and]
  cases x[i] <;> cases y[i] <;> rfl

/-- A bit that is set stays set. -/
theorem Within.test (h : Within x y) (hx : x &&& z ≠ 0) : y &&& z ≠ 0 := by
  intro hy
  rw [← h, BitVec.and_or_distrib_right] at hy
  exact hx (BitVec.or_eq_zero_iff.mp hy).1

/-- One bit of a word. -/
theorem and_bit_if (x : BitVec w) (k : ℕ) :
    x &&& BitVec.twoPow w k = bit_if (x &&& BitVec.twoPow w k ≠ 0) (BitVec.twoPow w k) := by
  rw [BitVec.and_twoPow, bit_if]
  by_cases hbit : x.getLsbD k = true
  · rw [if_pos hbit]
    by_cases hzero : BitVec.twoPow w k = 0
    · simp [hzero]
    · rw [if_pos hzero]
  · rw [if_neg hbit]
    simp

end bits

/-! ## FPSR -/

section fpsr

variable {st st' : float_status} {regs regs' : float_registers}

/-- Nothing that was raised is lost. -/
theorem fpsr_within {qc qc' : BitVec 32} (hqc : Within qc qc')
    (h : Within st.float_exception_flags st'.float_exception_flags) :
    Within (softfloat_to_arm64_fpsr st qc) (softfloat_to_arm64_fpsr st' qc') := by
  unfold softfloat_to_arm64_fpsr
  have hbit : ∀ (k : BitVec 8) (b : BitVec 32),
      Within (bit_if (st.float_exception_flags &&& k ≠ 0) b) (bit_if (st'.float_exception_flags &&& k ≠ 0) b) :=
    fun k b => Within.bit_if h.test b
  exact (((((hqc.or (hbit _ _)).or (hbit _ _)).or (hbit _ _)).or (hbit _ _)).or (hbit _ _)).or (hbit _ _)

theorem host_within (h more : host_exceptions) :
    Within (arm64_exceptions_from_host h) (arm64_exceptions_from_host (h.raise more)) := by
  unfold arm64_exceptions_from_host
  have hbit : ∀ (c d : Bool) (b : BitVec 32), Within (bit_if (c = true) b) (bit_if ((c || d) = true) b) := by
    intro c d b
    apply Within.bit_if
    intro hc
    rw [hc, Bool.true_or]
  exact ((((hbit _ _ _).or (hbit _ _ _)).or (hbit _ _ _)).or (hbit _ _ _)).or (hbit _ _ _)

/-- The other bits are zero. -/
theorem fpsr_bound (hqc : Within regs.qc 0x08000000) : Within (arm64_hlp_read_fpsr regs) 0x0800009f := by
  have hbit : ∀ (c : Prop) [Decidable c] (b : BitVec 32), Within b 0x0800009f → Within (bit_if c b) 0x0800009f :=
    fun c _ b hb => (Within.bit c b).trans hb
  unfold arm64_hlp_read_fpsr softfloat_to_arm64_fpsr arm64_exceptions_from_host
  dsimp only
  refine Within.union ?_ ?_
  · refine Within.union (Within.union (Within.union (Within.union (Within.union (Within.union ?_ ?_) ?_) ?_) ?_) ?_) ?_
    · exact hqc.trans (by decide)
    all_goals exact hbit _ _ (by decide)
  · refine Within.union (Within.union (Within.union (Within.union ?_ ?_) ?_) ?_) ?_
    all_goals exact hbit _ _ (by decide)

/-- Each bit comes back from its flag. -/
theorem fpsr_of_flags (st : float_status) (qc : BitVec 32) (idc ixc ufc ofc dzc ioc : Prop) [Decidable idc]
    [Decidable ixc] [Decidable ufc] [Decidable ofc] [Decidable dzc] [Decidable ioc] :
    softfloat_to_arm64_fpsr { st with
      float_exception_flags := bit_if idc float_flag_input_denormal ||| bit_if ixc float_flag_inexact
        ||| bit_if ufc float_flag_underflow ||| bit_if ofc float_flag_overflow ||| bit_if dzc float_flag_divbyzero
        ||| bit_if ioc float_flag_invalid } qc =
      qc ||| bit_if idc ARM64_FPSR_IDC ||| bit_if ixc ARM64_FPSR_IXC ||| bit_if ufc ARM64_FPSR_UFC
        ||| bit_if ofc ARM64_FPSR_OFC ||| bit_if dzc ARM64_FPSR_DZC ||| bit_if ioc ARM64_FPSR_IOC := by
  unfold softfloat_to_arm64_fpsr
  by_cases h7 : idc <;> by_cases h4 : ixc <;> by_cases h3 : ufc <;> by_cases h2 : ofc <;> by_cases h1 : dzc <;>
    by_cases h0 : ioc <;> simp only [bit_if, h7, h4, h3, h2, h1, h0, if_true, if_false] <;> rfl

/-- What is written is read back. -/
theorem read_write_fpsr (regs : float_registers) (value : BitVec 32) :
    arm64_hlp_read_fpsr (arm64_hlp_write_fpsr regs value) = value &&& 0x0800009f := by
  have hbit : ∀ k, value &&& BitVec.twoPow 32 k =
      bit_if (value &&& BitVec.twoPow 32 k ≠ 0) (BitVec.twoPow 32 k) := and_bit_if value
  have h0 : value &&& ARM64_FPSR_IOC = bit_if (value &&& ARM64_FPSR_IOC ≠ 0) ARM64_FPSR_IOC := hbit 0
  have h1 : value &&& ARM64_FPSR_DZC = bit_if (value &&& ARM64_FPSR_DZC ≠ 0) ARM64_FPSR_DZC := hbit 1
  have h2 : value &&& ARM64_FPSR_OFC = bit_if (value &&& ARM64_FPSR_OFC ≠ 0) ARM64_FPSR_OFC := hbit 2
  have h3 : value &&& ARM64_FPSR_UFC = bit_if (value &&& ARM64_FPSR_UFC ≠ 0) ARM64_FPSR_UFC := hbit 3
  have h4 : value &&& ARM64_FPSR_IXC = bit_if (value &&& ARM64_FPSR_IXC ≠ 0) ARM64_FPSR_IXC := hbit 4
  have h7 : value &&& ARM64_FPSR_IDC = bit_if (value &&& ARM64_FPSR_IDC ≠ 0) ARM64_FPSR_IDC := hbit 7
  have hmask : (0x0800009f : BitVec 32) = 0x08000000 ||| ARM64_FPSR_IDC ||| ARM64_FPSR_IXC ||| ARM64_FPSR_UFC
      ||| ARM64_FPSR_OFC ||| ARM64_FPSR_DZC ||| ARM64_FPSR_IOC := by decide
  rw [hmask]
  simp only [BitVec.and_or_distrib_left]
  rw [h0, h1, h2, h3, h4, h7]
  have hhost : arm64_exceptions_from_host feclearexcept = 0 := by decide
  simp only [arm64_hlp_read_fpsr, arm64_hlp_write_fpsr, hhost, fpsr_of_flags]
  exact BitVec.or_zero

end fpsr

/-! ## FPCR -/

/-- The rounding mode that a value of FPCR asks for. -/
def fpcr_mode (value : BitVec 32) : Mode :=
  if (value >>> 22) &&& 3 = 0 then .nearest_even
  else if (value >>> 22) &&& 3 = 1 then .up
  else if (value >>> 22) &&& 3 = 2 then .down
  else .to_zero

/-- What arithmetic has to do under a value of FPCR. -/
def fpcr_status (value : BitVec 32) : float_status where
  float_detect_tininess := .float_tininess_before_rounding
  float_rounding_mode := fpcr_mode value
  float_exception_flags := 0
  flush_to_zero := (value >>> 24) &&& 1 != 0
  flush_inputs_to_zero := (value >>> 24) &&& 1 != 0
  default_nan_mode := (value >>> 25) &&& 1 != 0

/-- The state stands for a value of FPCR. -/
structure Faithful (fpcr : BitVec 32) (regs : float_registers) : Prop where
  modes : SameModes (fpcr_status fpcr) regs.fp_status
  others : regs.fpcr_others = fpcr &&& 0x04009f00
  fast : regs.fast_math_is_allow = true ↔ fpcr &&& 0x03c00000 = 0
  qc : Within regs.qc 0x08000000

section fpcr

variable {fpcr value : BitVec 32} {regs regs' : float_registers}

theorem two_bits (x : BitVec 32) : x &&& 3 = 0 ∨ x &&& 3 = 1 ∨ x &&& 3 = 2 ∨ x &&& 3 = 3 := by
  have hlt : (x &&& 3).toNat < 4 := by
    rw [BitVec.toNat_and]
    exact Nat.and_lt_two_pow (n := 2) _ (by decide)
  generalize x &&& 3 = t at hlt ⊢
  bv_omega

/-- A bit in its place. -/
theorem bit_in_place (x : BitVec 32) (k : ℕ) :
    x &&& BitVec.twoPow 32 k = bit_if ((x >>> k) &&& 1 ≠ 0) (BitVec.twoPow 32 k) := by
  have hone : (1 : BitVec 32) = BitVec.twoPow 32 0 := by decide
  have hlow : ((x >>> k) &&& 1 ≠ 0) ↔ x.getLsbD k = true := by
    rw [hone, BitVec.and_twoPow, BitVec.getLsbD_ushiftRight, Nat.add_zero]
    cases x.getLsbD k <;> decide
  rw [BitVec.and_twoPow, bit_if]
  simp only [hlow]
  rfl

/-- The field of the rounding mode in its place. -/
theorem mode_in_place (x : BitVec 32) : x &&& (0x00c00000 : BitVec 32) = ((x >>> 22) &&& (3 : BitVec 32)) <<< 22 := by
  have hmask : BitVec.allOnes 32 <<< 22 &&& (3 : BitVec 32) <<< 22 = (0x00c00000 : BitVec 32) := by decide
  rw [BitVec.shiftLeft_and_distrib, BitVec.shiftLeft_ushiftRight, BitVec.and_assoc, hmask]

theorem mode_number (value : BitVec 32) :
    arm64_rm_to_softfloat_rm (rm.of ((value >>> 22) &&& 3)) = some (fpcr_mode value) ∧
      (softfloat_rm_to_arm64_rm (fpcr_mode value)).val = (value >>> 22) &&& 3 := by
  unfold fpcr_mode
  rcases two_bits (value >>> 22) with h | h | h | h <;> rw [h] <;> decide

/-- What is written is followed. -/
theorem write_fpcr_faithful (value : BitVec 32) (h : Faithful fpcr regs) :
    ∃ regs', arm64_hlp_write_fpcr regs value = some regs' ∧ Faithful value regs' ∧
      arm64_hlp_read_fpsr regs' = arm64_hlp_read_fpsr regs := by
  rw [arm64_hlp_write_fpcr, (mode_number value).1]
  refine ⟨_, rfl, ⟨⟨h.modes.detect, rfl, rfl, rfl, rfl⟩, rfl, ?_, h.qc⟩, rfl⟩
  -- the host may calculate just when the three fields are zero
  have hmask : (0x03c00000 : BitVec 32) = BitVec.twoPow 32 25 ||| BitVec.twoPow 32 24 ||| 0x00c00000 := by decide
  rw [hmask, BitVec.and_or_distrib_left, BitVec.and_or_distrib_left, bit_in_place value,
    bit_in_place value, mode_in_place, fpcr_mode]
  dsimp only
  have hdn : BitVec.twoPow 32 25 ≠ 0 := by decide
  have hfz : BitVec.twoPow 32 24 ≠ 0 := by decide
  have hor : ∀ x y z : BitVec 32, x ||| y ||| z = 0 ↔ (x = 0 ∧ y = 0) ∧ z = 0 := by
    intro x y z
    exact BitVec.or_eq_zero_iff.trans (and_congr_left' BitVec.or_eq_zero_iff)
  rw [hor]
  generalize (value >>> 25) &&& 1 = dn
  generalize (value >>> 24) &&& 1 = fz
  have hbit : ∀ (x b : BitVec 32), b ≠ 0 → (bit_if (x ≠ 0) b = 0 ↔ x = 0) := by
    intro x b hb
    by_cases hx : x = 0
    · simp [bit_if, hx]
    · rw [bit_if, if_pos hx]
      exact ⟨fun h => absurd h hb, fun h => absurd h hx⟩
  rw [hbit _ _ hdn, hbit _ _ hfz]
  rcases two_bits (value >>> 22) with ht | ht | ht | ht <;> rw [ht] <;> simp

/-- What is read is what was written. -/
theorem Faithful.read (h : Faithful fpcr regs) : arm64_hlp_read_fpcr regs = fpcr &&& 0x07c09f00 := by
  have hmask : (0x07c09f00 : BitVec 32) =
      BitVec.twoPow 32 25 ||| BitVec.twoPow 32 24 ||| 0x00c00000 ||| 0x04009f00 := by decide
  have hfield : (3#32 <<< 22) = (0x00c00000 : BitVec 32) := by decide
  have hshift : (((fpcr >>> 22) &&& (3 : BitVec 32)) <<< 22) &&& (0x00c00000 : BitVec 32) =
      ((fpcr >>> 22) &&& (3 : BitVec 32)) <<< 22 := by
    rw [← mode_in_place, BitVec.and_assoc, BitVec.and_self]
  rw [hmask]
  simp only [BitVec.and_or_distrib_left]
  rw [bit_in_place fpcr, bit_in_place fpcr, mode_in_place, arm64_hlp_read_fpcr,
    softfloat_to_arm64_cpsr, h.others, h.modes.rounding, h.modes.flush, h.modes.default_nan]
  simp only [fpcr_status, (mode_number fpcr).2, hfield, hshift, bne_iff_ne]
  rfl

end fpcr

/-! ## What arithmetic does to the status -/

/-- The modes stay, and no exception is taken back. -/
structure Accrues (st st' : float_status) : Prop where
  modes : SameModes st st'
  flags : Within st.float_exception_flags st'.float_exception_flags

section status

variable {F : float_format} {a b c fuel : ℕ} {st st' st'' : float_status} {z : ℕ × float_status}

theorem Accrues.refl (st : float_status) : Accrues st st := ⟨SameModes.refl st, Within.refl _⟩

theorem Accrues.trans (h : Accrues st st') (h' : Accrues st' st'') : Accrues st st'' :=
  ⟨h.modes.trans h'.modes, h.flags.trans h'.flags⟩

theorem Accrues.raise (flags : BitVec 8) (st : float_status) : Accrues st (float_raise flags st) :=
  ⟨SameModes.raise flags st, Within.left _ _⟩

theorem squash_accrues (F : float_format) (a : ℕ) (st : float_status) :
    Accrues st (float_squash_input_denormal F a st).2 := by
  unfold float_squash_input_denormal
  split_ifs
  · exact Accrues.raise _ _
  · exact Accrues.refl _

theorem delivered_accrues {s : Bool} {x : ℚ} (h : Delivered F st s x z) : Accrues st z.2 := by
  unfold Delivered at h
  by_cases hflush : st.flush_to_zero = true ∧ x ≠ 0 ∧ |x| < min_normal F
  · rw [if_pos hflush] at h
    rw [h]
    exact Accrues.raise _ _
  · rw [if_neg hflush] at h
    obtain ⟨r, -, hr⟩ := h
    by_cases hmax : max_finite F < |r|
    · rw [if_pos hmax] at hr
      rw [hr]
      exact Accrues.raise _ _
    · rw [if_neg hmax] at hr
      rw [hr.2.2.2]
      exact Accrues.raise _ _

theorem met_accrues {o : Outcome} (h : o.Met F st a b z) : Accrues st z.2 := by
  cases o with
  | number s x => exact delivered_accrues h
  | nan | invalid | infinity s flags =>
    rw [show z = _ from h]
    exact Accrues.raise _ _

theorem fused_met_accrues {o : Outcome} (h : o.FusedMet F st a b c z) : Accrues st z.2 := by
  cases o with
  | number s x => exact delivered_accrues h
  | nan | invalid | infinity s flags =>
    rw [show z = _ from h]
    exact Accrues.raise _ _

theorem operation_accrues (op : operation) (hfuel : 3 ≤ fuel) (ha : a < 2 ^ F.width) (hb : b < 2 ^ F.width)
    (hflush : FlushTogether st) (htiny : st.float_detect_tininess = .float_tininess_before_rounding) :
    ∃ z, op.apply fuel F a b st = some z ∧ Accrues st z.2 := by
  obtain ⟨z, hz, hmet⟩ := (squash_ready ha hb hflush htiny).met hfuel op
  refine ⟨z, ?_, ?_⟩
  · rw [op.apply_eq, hz]
  · exact ((squash_accrues F a st).trans (squash_accrues F b _)).trans (met_accrues hmet)

theorem muladd_accrues (ha : a < 2 ^ F.width) (hb : b < 2 ^ F.width) (hc : c < 2 ^ F.width) (flags : ℕ)
    (htiny : st.float_detect_tininess = .float_tininess_before_rounding) :
    Accrues st (float_muladd F a b c flags st).2 := by
  have hfirst := squash_accrues F a st
  have hsecond := squash_accrues F b (float_squash_input_denormal F a st).2
  have hthird := squash_accrues F c (float_squash_input_denormal F b (float_squash_input_denormal F a st).2).2
  have hall := (hfirst.trans hsecond).trans hthird
  have htiny' := hall.modes.detect.trans htiny
  have hpa := squash_word ha st
  have hpb := squash_word hb (float_squash_input_denormal F a st).2
  have hpc := squash_word hc (float_squash_input_denormal F b (float_squash_input_denormal F a st).2).2
  cases F with
  | float32 => exact hall.trans (fused_met_accrues (muladdSquashed_met exact32 hpa hpb hpc htiny'))
  | float64 => exact hall.trans (fused_met_accrues (muladdSquashed_met exact64 hpa hpb hpc htiny'))

theorem round_to_int_accrues (ha : a < 2 ^ F.width) (st : float_status) :
    Accrues st (float_round_to_int F a st).2 := by
  have hfirst := squash_accrues F a st
  have hword : (float_squash_input_denormal F a st).1 < 2 ^ F.width := squash_word ha st
  have hmax : F.bias + F.frac_bits ≤ F.exp_max := by cases F <;> decide
  apply hfirst.trans
  show Accrues _ (roundSquashed F _ _).2
  generalize float_squash_input_denormal F a st = p at hword ⊢
  rcases word_cases F hword with hnan | hinf | hfin
  · rw [roundSquashed]
    dsimp only
    rw [if_pos (hnan.1 ▸ hmax), if_pos ⟨hnan.1, hnan.2⟩]
    exact met_accrues (nan_met hword hword (Or.inl hnan))
  · rw [roundSquashed]
    dsimp only
    rw [hinf.1, if_pos hmax, if_neg fun h => h.2 hinf.2]
    exact Accrues.refl _
  · rw [(roundSquashed_rounded hfin p.2).status]
    exact Accrues.raise _ _

theorem convert_accrues (T : integer_type) (ha : a < 2 ^ F.width) (st : float_status) :
    Accrues st (T.convert F a st).2 := by
  rw [convert_eq T ha]
  apply (squash_accrues F a st).trans
  cases datum F (float_squash_input_denormal F a st).1 with
  | nan | infinity s => exact Accrues.raise _ _
  | number s x =>
    rw [Datum.to_integer]
    unfold clamped
    split_ifs <;> exact Accrues.raise _ _

/-- The comparisons. -/
theorem compare_accrues (F : float_format) (is_quiet : Bool) (a b : ℕ) (st : float_status) :
    Accrues st (float_compare_internal F is_quiet a b st).2 := by
  apply ((squash_accrues F a st).trans (squash_accrues F b _)).trans
  unfold float_compare_internal compareSquashed unordered_status
  dsimp only
  split_ifs
  any_goals exact Accrues.refl _
  all_goals exact Accrues.raise _ _

theorem propagate_accrues (F : float_format) (a b : ℕ) (st : float_status) :
    Accrues st (propagateFloatNaN F a b st).2 := by
  unfold propagateFloatNaN
  dsimp only
  split_ifs
  any_goals exact Accrues.refl _
  all_goals exact Accrues.raise _ _

theorem minmax_accrues (F : float_format) (ismin isieee : Bool) (a b : ℕ) (st : float_status) :
    Accrues st (float_minmax F ismin isieee a b st).2 := by
  apply ((squash_accrues F a st).trans (squash_accrues F b _)).trans
  unfold float_minmax minmaxSquashed
  dsimp only
  split_ifs
  any_goals exact Accrues.refl _
  all_goals exact propagate_accrues _ _ _ _

end status

/-! ## Steps and runs -/

/-- What arithmetic leaves of the registers. -/
structure Kept (regs regs' : float_registers) : Prop where
  status : Accrues regs.fp_status regs'.fp_status
  others : regs'.fpcr_others = regs.fpcr_others
  qc : regs'.qc = regs.qc
  fast : regs'.fast_math_is_allow = regs.fast_math_is_allow
  host : ∃ more, regs'.host = regs.host.raise more

section steps

variable {F : float_format} {a b c fuel : ℕ} {fpcr : BitVec 32} {regs regs' : float_registers}
  {z : ℕ × float_status}

theorem raise_nothing (h : host_exceptions) : h.raise feclearexcept = h := by
  simp [host_exceptions.raise, feclearexcept]

theorem Kept.faithful (h : Kept regs regs') (hregs : Faithful fpcr regs) : Faithful fpcr regs' where
  modes := hregs.modes.trans h.status.modes
  others := h.others.trans hregs.others
  fast := h.fast ▸ hregs.fast
  qc := h.qc ▸ hregs.qc

theorem Kept.within (h : Kept regs regs') : Within (arm64_hlp_read_fpsr regs) (arm64_hlp_read_fpsr regs') := by
  obtain ⟨more, hmore⟩ := h.host
  rw [arm64_hlp_read_fpsr, arm64_hlp_read_fpsr, hmore, h.qc]
  exact (fpsr_within (Within.refl _) h.status.flags).or (host_within _ _)

theorem with_status_kept (h : Accrues regs.fp_status z.2) : Kept regs (regs.with_status z).2 :=
  ⟨h, rfl, rfl, rfl, feclearexcept, (raise_nothing _).symm⟩

theorem fast_math_kept (a b : ℕ) (host : ℕ × host_exceptions) (h : Accrues regs.fp_status z.2) :
    Kept regs (fast_math F a b host z regs).2 := by
  unfold fast_math
  split_ifs
  · exact ⟨Accrues.refl _, rfl, rfl, rfl, host.2, rfl⟩
  · exact with_status_kept h

theorem Faithful.flush (h : Faithful fpcr regs) : FlushTogether regs.fp_status :=
  h.modes.flush.trans h.modes.flush_inputs.symm

theorem Faithful.tininess (h : Faithful fpcr regs) :
    regs.fp_status.float_detect_tininess = .float_tininess_before_rounding := h.modes.detect

theorem mode_of_rm {rmode : rm} (hodd : rmode ≠ .RM_ODD) : ∃ mode, arm64_rm_to_softfloat_rm rmode = some mode := by
  cases rmode with
  | RM_ODD => exact absurd rfl hodd
  | _ => exact ⟨_, rfl⟩

/-- Whatever is done in another mode, the mode comes back. -/
theorem restored_kept {mode : Mode} {n : ℕ} {st : float_status}
    (hst : Accrues { regs.fp_status with float_rounding_mode := mode } st) {flags : BitVec 8}
    (hflags : Within regs.fp_status.float_exception_flags flags) :
    Kept regs (regs.with_status (n, { st with
      float_exception_flags := flags
      float_rounding_mode := regs.fp_status.float_rounding_mode })).2 :=
  with_status_kept ⟨⟨hst.modes.detect, rfl, hst.modes.flush, hst.modes.flush_inputs, hst.modes.default_nan⟩, hflags⟩

theorem fcvt_kept (T : integer_type) (ha : a < 2 ^ F.width) {rmode : rm} (hodd : rmode ≠ .RM_ODD)
    (regs : float_registers) : ∃ r, dis_fcvt_scalar_integer T F a rmode regs = some r ∧ Kept regs r.2 := by
  obtain ⟨mode, hmode⟩ := mode_of_rm hodd
  have hall : Accrues { regs.fp_status with float_rounding_mode := mode }
      (if float_is_any_nan F a = true then
          ((0 : ℤ), float_raise float_flag_invalid { regs.fp_status with float_rounding_mode := mode })
        else T.convert F a { regs.fp_status with float_rounding_mode := mode }).2 := by
    by_cases hnan : float_is_any_nan F a = true
    · rw [if_pos hnan]
      exact Accrues.raise _ _
    · rw [if_neg hnan]
      exact convert_accrues T ha _
  unfold dis_fcvt_scalar_integer
  rw [hmode]
  exact ⟨_, rfl, restored_kept hall hall.flags⟩

/-- The mode of the instruction goes, and so does inexact if it was not there. -/
theorem frint_kept (ha : a < 2 ^ F.width) {rmode : rm} (hodd : rmode ≠ .RM_ODD) (regs : float_registers) :
    ∃ r, dis_frint F a rmode regs = some r ∧ Kept regs r.2 := by
  obtain ⟨mode, hmode⟩ := mode_of_rm hodd
  have hround := round_to_int_accrues ha { regs.fp_status with float_rounding_mode := mode }
  rw [dis_frint, hmode]
  refine ⟨_, rfl, restored_kept hround ?_⟩
  have hflags := hround.flags
  dsimp only at hflags ⊢
  generalize regs.fp_status.float_exception_flags = old at hflags ⊢
  generalize (float_round_to_int F a _).2.float_exception_flags = new at hflags ⊢
  split_ifs with hold
  · -- inexact is not among the old ones
    have hclear : old &&& ~~~float_flag_inexact = old := by
      have hsplit : old &&& (float_flag_inexact ||| ~~~float_flag_inexact) = old := by
        rw [show float_flag_inexact ||| ~~~float_flag_inexact = BitVec.allOnes 8 by decide, BitVec.and_allOnes]
      rw [BitVec.and_or_distrib_left, hold] at hsplit
      exact BitVec.zero_or.symm.trans hsplit
    rw [Within, ← hclear, ← BitVec.and_or_distrib_right, hflags]
  · exact hflags

/-- The value of FPCR after an instruction. -/
def fpcr_after (fpcr : BitVec 32) : float_insn → BitVec 32
  | .msr_fpcr value => value
  | _ => fpcr

/-- The bits of FPSR that an instruction leaves set for sure. -/
def fpsr_after (fpsr : BitVec 32) : float_insn → BitVec 32
  | .msr_fpsr value => value &&& 0x0800009f
  | .saturated => fpsr ||| 0x08000000
  | _ => fpsr

/-- One instruction. -/
theorem exec_spec (hfuel : 3 ≤ fuel) (h : Faithful fpcr regs) {i : float_insn} (henc : i.Encoded) :
    ∃ regs', i.exec fuel regs = some regs' ∧ Faithful (fpcr_after fpcr i) regs' ∧
      ∀ fpsr, Within fpsr (arm64_hlp_read_fpsr regs) → Within (fpsr_after fpsr i) (arm64_hlp_read_fpsr regs') := by
  -- arithmetic keeps both registers
  have hkept : ∀ regs', Kept regs regs' → Faithful fpcr regs' ∧
      ∀ fpsr, Within fpsr (arm64_hlp_read_fpsr regs) → Within fpsr (arm64_hlp_read_fpsr regs') :=
    fun regs' hk => ⟨hk.faithful h, fun fpsr hf => hf.trans hk.within⟩
  have hop : ∀ {F : float_format} {a b : ℕ} (op : operation), a < 2 ^ F.width ∧ b < 2 ^ F.width →
      ∃ z, op.apply fuel F a b regs.fp_status = some z ∧ Accrues regs.fp_status z.2 :=
    fun op hab => operation_accrues op hfuel hab.1 hab.2 h.flush h.tininess
  -- only the writes and the saturation touch anything else
  cases i with
  | msr_fpcr value =>
    obtain ⟨regs', hwrite, hfaithful, hread⟩ := write_fpcr_faithful value h
    exact ⟨regs', hwrite, hfaithful, fun fpsr hf => hread ▸ hf⟩
  | msr_fpsr value =>
    refine ⟨_, rfl, ⟨h.modes.trans ⟨rfl, rfl, rfl, rfl, rfl⟩, h.others, h.fast, ?_⟩, fun fpsr _ => ?_⟩
    · exact Within.mask value 0x08000000
    · rw [read_write_fpsr]
      exact Within.refl _
  | saturated =>
    refine ⟨_, rfl, ⟨h.modes, h.others, h.fast, Within.refl _⟩, fun fpsr hf => ?_⟩
    have hset : Within (0x08000000 : BitVec 32) (arm64_hlp_read_fpsr (set_qc regs)) := by
      unfold arm64_hlp_read_fpsr softfloat_to_arm64_fpsr
      dsimp only
      simp only [BitVec.or_assoc]
      exact Within.left _ _
    exact (hf.trans ((fpsr_within h.qc (Within.refl _)).or (Within.refl _))).union hset
  | fadd F a b host =>
    obtain ⟨z, hz, hacc⟩ := hop .add henc
    obtain rfl := Option.some.inj hz
    exact ⟨_, rfl, hkept _ (fast_math_kept a b host hacc)⟩
  | fsub F a b host =>
    obtain ⟨z, hz, hacc⟩ := hop .sub henc
    obtain rfl := Option.some.inj hz
    exact ⟨_, rfl, hkept _ (fast_math_kept a b host hacc)⟩
  | fmul F a b host =>
    obtain ⟨z, hz, hacc⟩ := hop .mul henc
    obtain rfl := Option.some.inj hz
    exact ⟨_, rfl, hkept _ (fast_math_kept a b host hacc)⟩
  | fdiv F a b =>
    obtain ⟨z, hz, hacc⟩ := hop .div henc
    refine ⟨_, ?_, hkept _ (with_status_kept hacc)⟩
    have hdiv : float_div fuel F a b regs.fp_status = some z := hz
    rw [float_insn.exec, Arm64.fdiv, hdiv]
    rfl
  | fmadd F a b acc =>
    exact ⟨_, rfl, hkept _ (with_status_kept (muladd_accrues henc.1 henc.2.1 henc.2.2 0 h.tininess))⟩
  | fmax F a b => exact ⟨_, rfl, hkept _ (with_status_kept (minmax_accrues F false false a b _))⟩
  | fmin F a b => exact ⟨_, rfl, hkept _ (with_status_kept (minmax_accrues F true false a b _))⟩
  | fmaxnm F a b => exact ⟨_, rfl, hkept _ (with_status_kept (minmax_accrues F false true a b _))⟩
  | fminnm F a b => exact ⟨_, rfl, hkept _ (with_status_kept (minmax_accrues F true true a b _))⟩
  | fcmp F a b is_quiet =>
    refine ⟨_, rfl, hkept _ (with_status_kept ?_)⟩
    cases is_quiet
    · exact compare_accrues F false a b _
    · exact compare_accrues F true a b _
  | scvtf sf F r =>
    refine ⟨_, rfl, hkept _ (with_status_kept ?_)⟩
    cases sf <;> cases F
    · exact delivered_accrues (int32_to_float32_converted h.tininess _)
    · exact delivered_accrues (int32_to_float64_converted _ _)
    · exact delivered_accrues (int64_to_float32_converted h.tininess _)
    · exact delivered_accrues (int64_to_float64_converted h.tininess _)
  | frint F a rmode =>
    obtain ⟨r, hr, hk⟩ := frint_kept henc.1 henc.2 regs
    exact ⟨r.2, by rw [float_insn.exec, hr]; rfl, hkept _ hk⟩
  | fcvt T F a rmode =>
    obtain ⟨r, hr, hk⟩ := fcvt_kept T henc.1 henc.2 regs
    exact ⟨r.2, by rw [float_insn.exec, hr]; rfl, hkept _ hk⟩
  | frintx F a => exact ⟨_, rfl, hkept _ (with_status_kept (round_to_int_accrues henc _))⟩
  | frinti F a =>
    have hodd : softfloat_rm_to_arm64_rm regs.fp_status.float_rounding_mode ≠ .RM_ODD := by
      cases regs.fp_status.float_rounding_mode <;> decide
    obtain ⟨r, hr, hk⟩ := frint_kept henc hodd regs
    exact ⟨r.2, by rw [float_insn.exec, dis_frinti, hr]; rfl, hkept _ hk⟩

theorem init_faithful (host : host_exceptions) : Faithful 0 (float_init host) :=
  ⟨⟨rfl, rfl, rfl, rfl, rfl⟩, rfl, by simp [float_init], BitVec.zero_or⟩

/-- Only a write to FPSR clears bits. -/
theorem fpsr_after_grows {is : List float_insn} (hwrite : ∀ value, .msr_fpsr value ∉ is) (fpsr : BitVec 32) :
    Within fpsr (is.foldl fpsr_after fpsr) := by
  induction is generalizing fpsr with
  | nil => exact .refl _
  | cons i is ih =>
    have hstep : Within fpsr (fpsr_after fpsr i) := by
      cases i with
      | msr_fpsr value => exact absurd List.mem_cons_self (hwrite value)
      | saturated => exact .left _ _
      | _ => exact .refl _
    exact hstep.trans (ih (fun value hmem => hwrite value (List.mem_cons_of_mem i hmem)) _)

/-- A run keeps what each of its instructions keeps. -/
theorem run_spec (hfuel : 3 ≤ fuel) (host : host_exceptions) {is : List float_insn} (henc : ∀ i ∈ is, i.Encoded)
    (h : Faithful fpcr regs) {fpsr : BitVec 32} (hfpsr : Within fpsr (arm64_hlp_read_fpsr regs)) :
    ∃ regs', (float_system fuel host).run regs is = some regs' ∧ Faithful (is.foldl fpcr_after fpcr) regs' ∧
      Within (is.foldl fpsr_after fpsr) (arm64_hlp_read_fpsr regs') := by
  -- along the run, the invariant is `Faithful` together with the bits that are known to be set
  induction is generalizing fpcr fpsr regs with
  | nil => exact ⟨regs, rfl, h, hfpsr⟩
  | cons i is ih =>
    obtain ⟨regs₁, hexec, hfaithful, hwithin⟩ := exec_spec hfuel h (henc i List.mem_cons_self)
    obtain ⟨regs', hrun, hrest⟩ := ih (fun j hj => henc j (List.mem_cons_of_mem i hj)) hfaithful (hwithin fpsr hfpsr)
    refine ⟨regs', ?_, hrest⟩
    have hstep : (float_system fuel host).exec regs i = some regs₁ := hexec
    rw [System.run, hstep]
    exact hrun

end steps

/-- What a state means to a guest that has written `fpcr`, and for which the bits of `fpsr` are set. -/
structure Followed (fuel : ℕ) (fpcr fpsr : BitVec 32) (regs : float_registers) : Prop where
  fpcr_read : arm64_hlp_read_fpcr regs = fpcr &&& 0x07c09f00
  fpsr_kept : Within fpsr (arm64_hlp_read_fpsr regs)
  fpsr_bound : Within (arm64_hlp_read_fpsr regs) 0x0800009f
  /-- The host calculates for the default of FPCR only. -/
  fast : regs.fast_math_is_allow = true ↔ fpcr &&& 0x03c00000 = 0
  modes : SameModes (fpcr_status fpcr) regs.fp_status
  arithmetic {F : float_format} {a b : ℕ} (op : operation) : a < 2 ^ F.width → b < 2 ^ F.width →
    let pa := float_squash_input_denormal F a regs.fp_status
    let pb := float_squash_input_denormal F b pa.2
    ∃ z, op.apply fuel F a b regs.fp_status = some z ∧
      (op.outcome pb.2 (datum F pa.1) (datum F pb.1)).Met F pb.2 pa.1 pb.1 z

/-- No run of the instructions fails, and all along it FPCR is read as it was written and obeyed, no bit that
    stands in FPSR at some point is lost before the guest writes FPSR again, and the host calculates only where
    the default is asked for. -/
theorem float_registers_followed {fuel : ℕ} (hfuel : 3 ≤ fuel) (host : host_exceptions) {is : List float_insn}
    (henc : ∀ i ∈ is, i.Encoded) :
    ∃ regs, (float_system fuel host).run (float_init host) is = some regs ∧
      Followed fuel (is.foldl fpcr_after 0) (is.foldl fpsr_after 0) regs ∧
      ∀ before later, is = before ++ later → (∀ value, .msr_fpsr value ∉ later) →
        ∃ mid, (float_system fuel host).run (float_init host) before = some mid ∧
          (float_system fuel host).run mid later = some regs ∧
          Within (arm64_hlp_read_fpsr mid) (arm64_hlp_read_fpsr regs) := by
  have hzero : Within 0 (arm64_hlp_read_fpsr (float_init host)) := BitVec.zero_or
  obtain ⟨regs, hrun, hfaithful, hfpsr⟩ := run_spec hfuel host henc (init_faithful host) hzero
  refine ⟨regs, hrun, ⟨hfaithful.read, hfpsr, fpsr_bound hfaithful.qc, hfaithful.fast, hfaithful.modes, ?_⟩, ?_⟩
  · intro F a b op ha hb pa pb
    rw [op.apply_eq]
    exact (squash_ready ha hb hfaithful.flush hfaithful.tininess).met hfuel op
  · rintro before later rfl hwrite
    -- the second part of the run starts with the bits that FPSR has there
    obtain ⟨mid, hbefore, hmid, -⟩ := run_spec hfuel host (fun i hi => henc i (List.mem_append_left _ hi))
      (init_faithful host) hzero
    obtain ⟨last, hlater, -, hkept⟩ := run_spec hfuel host (fun i hi => henc i (List.mem_append_right _ hi))
      hmid (.refl (arm64_hlp_read_fpsr mid))
    rw [System.run_append, hbefore, Option.bind_some, hlater] at hrun
    obtain rfl := Option.some.inj hrun
    exact ⟨mid, hbefore, hlater, (fpsr_after_grows hwrite _).trans hkept⟩

/-- `1.0 / 0.0` while rounding to zero: what it raises is still in FPSR after another division. -/
theorem float_registers_followed_division :
    let is : List float_insn :=
      [.msr_fpcr 0x00c00000, .fdiv .float64 0x3FF0000000000000 0, .fdiv .float64 0 0x3FF0000000000000]
    ∃ regs, (float_system 3 feclearexcept).run (float_init feclearexcept) is = some regs ∧
      Followed 3 (is.foldl fpcr_after 0) (is.foldl fpsr_after 0) regs ∧
      ∃ mid, (float_system 3 feclearexcept).run (float_init feclearexcept) (is.take 2) = some mid ∧
        Within (arm64_hlp_read_fpsr mid) (arm64_hlp_read_fpsr regs) := by
  intro is
  obtain ⟨regs, hrun, hfollowed, hsplit⟩ := @float_registers_followed 3 (le_refl 3) feclearexcept is
    (by simp [is, float_insn.Encoded, float_format.width])
  obtain ⟨mid, hmid, -, hkept⟩ := hsplit (is.take 2) (is.drop 2) rfl (by simp [is])
  exact ⟨regs, hrun, hfollowed, mid, hmid, hkept⟩

end Umeq.Arm64
