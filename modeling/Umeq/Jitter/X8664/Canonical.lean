import Umeq.Jitter.X8664.Run
import Umeq.Jitter.X8664.Values

/-! # Narrow values in host registers

    A virtual register of fewer than 64 bits lives in a host register of 64 bits.
    Right shifts, comparisons, predicates and widening casts look at the whole host
    register, so they rely on what is above the value being zero. Binary operations
    mask their result for that reason, and so do casts that do not sign extend. The
    other producers leave more in the register, each in its own way:

    * a constant is moved as it is, with all its 64 bits;
    * loads and context reads of 8 and 16 bits write a part of the register only;
    * a cast that sign extends does so up to 64 bits;
    * the result of a call is what the function left in `rax`.

    `canonical_iff_kept` tells when the registers hold no more than their values.
-/

namespace Umeq.Jitter.X86_64

open Bytes Words X86

/-! ## What each producer leaves in the register -/

theorem clean_mono {s t : width} (hst : s.bits ≤ t.bits) {x : BitVec 64} (h : Clean s x) :
    Clean t x := by
  rw [clean_iff_getElem] at h ⊢
  exact fun i hi hle => h i hi (Nat.le_trans hst hle)

theorem clean_sign_extend {s t : width} (hst : s.bits ≤ t.bits) (ht : t.bits < 64) (x : BitVec 64) :
    Clean t ((x <<< sign_shift s).sshiftRight (sign_shift s)) ↔ x.getLsbD (s.bits - 1) = false := by
  rw [clean_iff_getElem]
  refine ⟨?_, ?_⟩
  · intro h
    have hbit := getLsbD_sign_extend s x (show 63 < 64 by decide)
    rw [if_neg (show ¬ 63 < s.bits by omega), BitVec.getLsbD_eq_getElem (by decide)] at hbit
    rw [← hbit]
    exact h 63 (by decide) (by omega)
  · intro h i hi hle
    rw [← BitVec.getLsbD_eq_getElem, getLsbD_sign_extend s x hi, if_neg (by omega), h]

theorem clean_host_cast (type : irCastType) (x : BitVec 64) :
    Clean type.target (host_cast type x) ↔
      (type.signed → type.target ≠ .w64 → x.getLsbD (type.source.bits - 1) = false) := by
  unfold host_cast
  cases hsigned : type.signed with
  | false =>
    simp only [Bool.false_eq_true, if_false, false_implies, iff_true]
    split_ifs with hle
    · exact clean_mono hle (clean_low _ _)
    · exact clean_low _ _
  | true =>
    simp only [if_true, true_implies]
    by_cases ht : type.target = .w64
    · simp only [ht, ne_eq, not_true_eq_false, false_implies, iff_true]
      exact clean_w64 _
    · have hst : type.source.bits ≤ type.target.bits := by
        revert hsigned
        cases type <;> decide
      have hlt : type.target.bits < 64 := by
        revert ht
        cases type.target <;> decide
      rw [clean_sign_extend hst hlt]
      exact ⟨fun h _ => h, fun h => h ht⟩

/-- The instruction leaves nothing above the value in the register that it writes. `W`
    gives the widths, and `c` is the state before it. -/
def x86Instruction.canonical (W : Nat → width) (h : helpers) (b : Nat → Fin 8) (c : cpu) :
    x86Instruction → Prop
  | .mov_const dst value => value.toNat < 2 ^ (W dst).bits
  | .load w dst _ | .read w dst _ => w = .w8 ∨ w = .w16 → (view c (b dst)).toNat < 2 ^ w.bits
  | .cast type _ op =>
    type.signed → type.target ≠ .w64 → (view c (b op)).getLsbD (type.source.bits - 1) = false
  | .call address param (some result) =>
    (called h c (b address) fun i => (param i).map b).2.toNat < 2 ^ (W result).bits
  | .call _ _ none | .store _ _ _ | .binop _ _ _ _ _ | .ite _ _ _ _ | .exit _ _ _ | .write _ _ _
  | .marker _ => True

theorem clean_merge_iff (w : width) (old new : BitVec 64) :
    Clean w (merge w old new) ↔ (w = .w8 ∨ w = .w16 → old.toNat < 2 ^ w.bits) := by
  cases w with
  | w8 | w16 =>
    rw [clean_merge_narrow (by decide), clean_iff_lt]
    simp
  | w32 => simp [clean_merge_w32]
  | w64 => simp [clean_w64]

/-- One instruction, when its operands hold no more than their values. -/
theorem clean_value_iff {W : Nat → width} {h : helpers} {b : Nat → Fin 8} {c : cpu}
    {insn : x86Instruction} {d : Nat} (htyped : insn.typed W) (hdst : insn.dst = some d)
    (hreads : ∀ v ∈ insn.reads, Clean (W v) (view c (b v))) :
    Clean (W d) (insn.value h b c) ↔ insn.canonical W h b c := by
  cases insn with
  | mov_const dst value =>
    obtain rfl := Option.some.inj hdst
    exact clean_iff_lt
  | load w dst address | read w dst offset =>
    obtain rfl := Option.some.inj hdst
    rw [show W dst = w from htyped]
    exact clean_merge_iff w _ _
  | binop w type dst op1 op2 =>
    obtain rfl := Option.some.inj hdst
    rw [show W dst = w from htyped]
    exact iff_of_true (clean_low w _) trivial
  | ite dst pred trueOp falseOp =>
    obtain rfl := Option.some.inj hdst
    refine iff_of_true ?_ trivial
    -- one of the operands, which are of the same width
    simp only [x86Instruction.value]
    split_ifs
    · rw [← htyped.1]
      exact hreads trueOp (by simp [x86Instruction.reads])
    · rw [← htyped.2]
      exact hreads falseOp (by simp [x86Instruction.reads])
  | cast type dst op =>
    obtain rfl := Option.some.inj hdst
    rw [show W dst = type.target from htyped]
    exact clean_host_cast type _
  | call address param result =>
    obtain rfl : result = some d := hdst
    exact clean_iff_lt
  | store _ _ _ | exit _ _ _ | write _ _ _ | marker _ => cases hdst

/-! ## Every point of the code -/

section program

variable {j : jitter} {p : program} (x : Compiled j p) {h : helpers} {r : clobber} {c₀ c : cpu}

/-- At every point of the code the host register of a live virtual register holds a
    value smaller than two to its width. The points are the starts of the instructions:
    in between, a call borrows registers that it gives back. -/
def Compiled.Canonical (e : externals) (c₀ : cpu) : Prop :=
  ∀ k c, x.At e c₀ k c → ∀ v, Live j k v →
    (c.regs (hi (x.place v))).toNat < 2 ^ (virtual_width j v).bits

/-- Every instruction whose result is read leaves nothing above it, in the states in
    which the run comes to it. -/
def Compiled.Kept (h : helpers) (r : clobber) (c₀ : cpu) : Prop :=
  ∀ k c insn, x.At (host h r) c₀ k c → (allocateInstructions j).insns[k]? = some insn →
    (∀ d, insn.dst = some d → (allocateInstructions j).lastReadIndex d ≠ none) →
    insn.canonical (virtual_width j) h x.place c

/-- What is live holds no more than its value. -/
def Compiled.Clean (k : Nat) (c : cpu) : Prop :=
  ∀ v, Live j k v → Words.Clean (virtual_width j v) (view c (x.place v))

/-- The condition is enough. -/
theorem Compiled.Kept.canonical (hentry : Entry c₀) (hkept : x.Kept h r c₀) :
    x.Canonical (host h r) c₀ := by
  intro k c hat v hlive
  refine clean_iff_lt.mp ((x.rule (I := x.Clean) hentry ?_ ?_ hat).2 v hlive)
  · intro v hlive
    simp [Live, dsts] at hlive
  · intro k insn c c' hinsn hat hclean hexec v hlive
    rcases live_succ hinsn hlive with hdst | hbefore
    · -- the result
      rw [hexec.result hdst]
      have hmem := List.mem_of_getElem? hinsn
      refine (clean_value_iff (x.typed.typed insn hmem) hdst ?_).mpr ?_
      · exact fun v hv => hclean v (x.live_of_read hinsn hv)
      · refine hkept k c insn hat hinsn ?_
        intro d hd
        obtain rfl := Option.some.inj (hdst.symm.trans hd)
        obtain ⟨l, hl, -⟩ := LinearScan.is_live_iff.mp hlive.2
        simp [hl]
    · rw [x.kept hinsn hexec hbefore]
      exact hclean v hbefore

/-- The condition is needed. -/
theorem Compiled.Canonical.kept (hcanonical : x.Canonical (host h r) c₀) : x.Kept h r c₀ := by
  intro k c insn hat hinsn hread
  cases hdst : insn.dst with
  | none =>
    cases insn with
    | store _ _ _ | exit _ _ _ | write _ _ _ | marker _ => trivial
    | call address param result =>
      obtain rfl : result = none := hdst
      trivial
    | _ => cases hdst
  | some d =>
    have hstays : ¬ insn.leaves x.place c := by
      cases insn with
      | exit _ _ _ => cases hdst
      | _ => exact id
    obtain ⟨c', hat', hexec⟩ := x.next hat hinsn hstays
    have hclean := fun v (hv : v ∈ insn.reads) =>
      clean_iff_lt.mpr (hcanonical k c hat v (x.live_of_read hinsn hv))
    refine (clean_value_iff (x.typed.typed insn (List.mem_of_getElem? hinsn)) hdst hclean).mp ?_
    rw [← hexec.result hdst]
    refine clean_iff_lt.mpr (hcanonical (k + 1) c' hat' d ⟨?_, ?_⟩)
    · rw [List.take_add_one, hinsn, Option.toList_some, dsts_append, dsts_singleton, hdst]
      simp
    · obtain ⟨l, hl⟩ := Option.ne_none_iff_exists'.mp (hread d hdst)
      exact LinearScan.is_live_iff.mpr ⟨l, hl, x.typed.later hinsn hdst hl⟩

/-- Narrow values are zero extended in their registers at every point of the code exactly
    when every instruction of the run whose result is read has moved a constant of its
    width, loaded or read fewer than 32 bits into a register without upper bits, sign
    extended a value without sign bit, or called a function with a result of its width. -/
theorem canonical_iff_kept (hentry : Entry c₀) : x.Canonical (host h r) c₀ ↔ x.Kept h r c₀ :=
  ⟨Compiled.Canonical.kept x, Compiled.Kept.canonical x hentry⟩

end program

/-! ### A byte that is sign extended to 16 bits -/

def sign_extended (value : BitVec 64) : jitter :=
  let (j, byte) := Jitter.add_mov_const .w8 value resetJitter
  let (j, half) := add_cast .c8S_TO_16 byte j
  let j := add_write_context .w16 half 0 j
  let (j, pc) := Jitter.add_mov_const .w64 0 j
  (add_exit_cond pc none j).getD j

theorem built_sign_extended (value : BitVec 64) : Built (sign_extended value) := by
  refine .exit ⟨.w64, 2⟩ none (.mov_const .w64 0 (.write_context .w16 ⟨.w16, 1⟩ 0
    (.cast .c8S_TO_16 ⟨.w8, 0⟩ (.mov_const .w8 value .reset) rfl) rfl)) rfl ?_ rfl
  intro r hr
  cases hr

theorem insns_sign_extended (value : BitVec 64) : (allocateInstructions (sign_extended value)).insns =
    [.mov_const 0 value, .cast .c8S_TO_16 1 0, .write .w16 1 0, .mov_const 2 0, .exit 2 none true] :=
  rfl

/-- The holes that the code of an exit leaves. -/
def no_hole (_ : Nat) : List UInt8 := List.replicate 8 0

theorem jit_sign_extended (value : BitVec 64) : (jit (sign_extended value) no_hole).isSome := rfl

def compiled_sign_extended (value : BitVec 64) : Compiled (sign_extended value)
    ⟨0, (jit (sign_extended value) no_hole).get (jit_sign_extended value)⟩ :=
  compile (built_sign_extended value) (fun _ => rfl) (Option.some_get _).symm 0

/-- No helper is called. -/
def no_helpers : helpers := ⟨fun _ _ => 0, fun _ _ _ m => (m, 0)⟩

def no_clobber : clobber := ⟨fun _ _ _ _ => 0, fun _ _ _ => false⟩

def blank : cpu := ⟨fun _ => 0, false, fun _ => 0, [], 0, []⟩

theorem entry_blank : Entry blank := ⟨rfl, rfl⟩

/-- A byte without sign bit stays a byte. -/
theorem positive_byte_canonical : Entry blank ∧
    (compiled_sign_extended 0x7f).Canonical (host no_helpers no_clobber) blank := by
  refine ⟨entry_blank, (canonical_iff_kept _ entry_blank).mpr ?_⟩
  intro k c insn hat hinsn _
  rw [insns_sign_extended] at hinsn
  match k, hinsn with
  | 0, hinsn | 3, hinsn =>
    obtain rfl := Option.some.inj hinsn
    simp only [x86Instruction.canonical]
    decide
  | 2, hinsn | 4, hinsn =>
    obtain rfl := Option.some.inj hinsn
    trivial
  | 1, hinsn =>
    obtain rfl := Option.some.inj hinsn
    intro _ _
    have hmove : (allocateInstructions (sign_extended 0x7f)).insns[0]? =
      some (.mov_const 0 0x7f) := rfl
    rw [(compiled_sign_extended 0x7f).first_const entry_blank hmove hat]
    decide

/-- A byte with its sign bit set leaves 64 bits in the register of a 16-bit value. -/
theorem negative_byte_not_canonical :
    ¬ (compiled_sign_extended 0x80).Canonical (host no_helpers no_clobber) blank := by
  intro hcanonical
  have hstart : (compiled_sign_extended 0x80).At (host no_helpers no_clobber) blank 0 blank :=
    ⟨by decide, .refl, rfl⟩
  have hmove : (allocateInstructions (sign_extended 0x80)).insns[0]? = some (.mov_const 0 0x80) := rfl
  have hcast : (allocateInstructions (sign_extended 0x80)).insns[1]? =
      some (.cast .c8S_TO_16 1 0) := rfl
  obtain ⟨c, hat, -⟩ := (compiled_sign_extended 0x80).next hstart hmove id
  have hkept := Compiled.Canonical.kept _ hcanonical 1 c _ hat hcast (by
    rintro d ⟨⟩
    decide)
  have hsign := hkept rfl (by decide)
  rw [(compiled_sign_extended 0x80).first_const entry_blank hmove hat] at hsign
  revert hsign
  decide

end Umeq.Jitter.X86_64
