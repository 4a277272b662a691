import Umeq.Jitter.Built
import Umeq.Jitter.X8664.Backend
import Mathlib.Tactic.FinCases

/-! # Lowering one instruction

    `allocateInstructions` keeps the single assignment form that the builders give:
    the same instructions over virtual registers, with the last read of each in
    `lastReadIndex`. This is what the allocator needs.
-/

namespace Umeq.Jitter.X86_64

open Words

/-! ## Single assignment form -/

/-- The registers that lowered instructions write. -/
def dsts (insns : List x86Instruction) : List Nat := insns.filterMap x86Instruction.dst

theorem dsts_append (a b : List x86Instruction) : dsts (a ++ b) = dsts a ++ dsts b := by
  simp [dsts]

theorem dsts_singleton (insn : x86Instruction) : dsts [insn] = insn.dst.toList := by
  cases h : insn.dst <;> simp [dsts, h]

/-- Each virtual register is written once, before it is read. -/
structure WrittenOnce (insns : List x86Instruction) : Prop where
  nodup : (dsts insns).Nodup
  reads : ∀ k insn, insns[k]? = some insn → ∀ v ∈ insn.reads, v ∈ dsts (insns.take k)

/-- The last reads, as the table of `inter` has them. -/
structure LastReads (i : inter) : Prop where
  last : ∀ k insn, i.insns[k]? = some insn → ∀ v ∈ insn.reads, ∃ l, i.lastReadIndex v = some l ∧ k ≤ l
  ends : ∀ v l, i.lastReadIndex v = some l → ∃ insn, i.insns[l]? = some insn ∧ v ∈ insn.reads

section single

variable {i : inter} {insns : List x86Instruction} {k d : Nat} {insn : x86Instruction}

/-- A register is not defined before its definition. -/
theorem WrittenOnce.fresh (h : WrittenOnce insns) (hinsn : insns[k]? = some insn)
    (hd : insn.dst = some d) : d ∉ dsts (insns.take k) := by
  intro hmem
  have hnodup := h.nodup
  rw [← List.take_append_drop k insns, dsts_append] at hnodup
  refine (List.nodup_append.mp hnodup).2.2 d hmem d ?_ rfl
  refine List.mem_filterMap.mpr ⟨insn, List.mem_of_getElem? (i := 0) ?_, hd⟩
  rw [List.getElem?_drop, Nat.add_zero, hinsn]

/-- A register is read after its definition only. -/
theorem WrittenOnce.later (h : WrittenOnce i.insns) (hlast : LastReads i)
    (hinsn : i.insns[k]? = some insn) (hd : insn.dst = some d) {l : Nat}
    (hl : i.lastReadIndex d = some l) : k < l := by
  obtain ⟨insn', hinsn', hv⟩ := hlast.ends d l hl
  have hdef := h.reads l insn' hinsn' d hv
  by_contra hle
  refine h.fresh hinsn hd ?_
  rw [show i.insns.take l = (i.insns.take k).take l by rw [List.take_take, Nat.min_eq_left (by omega)]] at hdef
  rw [← List.take_append_drop l (i.insns.take k), dsts_append]
  exact List.mem_append_left _ hdef

theorem LastReads.add (h : LastReads i) (insn : x86Instruction) : LastReads (i.add insn) := by
  refine ⟨?_, ?_⟩
  · intro k insn' hinsn v hv
    simp only [inter.add] at hinsn ⊢
    split_ifs with hmem
    · refine ⟨_, rfl, ?_⟩
      have := (List.getElem?_eq_some_iff.mp hinsn).1
      rw [List.length_append, List.length_singleton] at this
      omega
    · -- another instruction reads it
      have hk : k < i.insns.length := by
        by_contra hk
        rw [List.getElem?_append_right (by omega), List.getElem?_singleton] at hinsn
        split_ifs at hinsn
        exact hmem (Option.some.inj hinsn ▸ hv)
      rw [List.getElem?_append_left hk] at hinsn
      exact h.last k insn' hinsn v hv
  · intro v l hl
    simp only [inter.add] at hl ⊢
    split_ifs at hl with hmem
    · obtain rfl := Option.some.inj hl
      exact ⟨insn, by simp, hmem⟩
    · obtain ⟨insn', hinsn, hv⟩ := h.ends v l hl
      refine ⟨insn', ?_, hv⟩
      rw [List.getElem?_append_left (List.getElem?_eq_some_iff.mp hinsn).1, hinsn]

theorem writes_access (insns : List x86Instruction) :
    (insns.map x86Instruction.access).flatMap LinearScan.access.writes = dsts insns := by
  induction insns with
  | nil => rfl
  | cons insn insns ih =>
    have hcons : dsts (insn :: insns) = insn.dst.toList ++ dsts insns := by
      cases h : insn.dst <;> simp [dsts, h]
    rw [List.map_cons, List.flatMap_cons, ih, hcons]
    rfl

/-- The instructions as the allocator needs them. -/
theorem WrittenOnce.ssa (h : WrittenOnce i.insns) (hlast : LastReads i) :
    LinearScan.Ssa i.lastReadIndex 0 [] (i.insns.map x86Instruction.access) := by
  refine LinearScan.ssa_of_sound i.lastReadIndex [] _ ?_
  intro k a ha
  rw [List.getElem?_map] at ha
  obtain ⟨insn, hinsn, rfl⟩ := Option.map_eq_some_iff.mp ha
  rw [List.length_nil, Nat.zero_add, List.nil_append, ← List.map_take, writes_access]
  refine ⟨?_, ?_, ?_, ?_, ?_⟩
  · intro v hv
    exact ⟨h.reads k insn hinsn v hv, LinearScan.is_live_iff.mpr (hlast.last k insn hinsn v hv)⟩
  · intro v _ hl
    obtain ⟨insn', hinsn', hv⟩ := hlast.ends v k hl
    rw [hinsn] at hinsn'
    obtain rfl := Option.some.inj hinsn'
    exact hv
  · show insn.dst.toList.Nodup
    cases insn.dst <;> simp
  · intro d hd
    exact h.fresh hinsn (Option.mem_toList.mp hd)
  · intro d hd l hl
    exact h.later hlast hinsn (Option.mem_toList.mp hd) hl

end single

/-- What lowering keeps. -/
structure Lowered (i : inter) : Prop where
  nodup : (dsts i.insns).Nodup
  lt : ∀ v ∈ dsts i.insns, v < i.regIndex
  reads : ∀ k insn, i.insns[k]? = some insn → ∀ v ∈ insn.reads, v ∈ dsts (i.insns.take k)
  last : ∀ k insn, i.insns[k]? = some insn → ∀ v ∈ insn.reads, ∃ l, i.lastReadIndex v = some l ∧ k ≤ l
  ends : ∀ v l, i.lastReadIndex v = some l → ∃ insn, i.insns[l]? = some insn ∧ v ∈ insn.reads

section lowered

variable {i : inter}

theorem Lowered.writtenOnce (h : Lowered i) : WrittenOnce i.insns := ⟨h.nodup, h.reads⟩

theorem Lowered.lastReads (h : Lowered i) : LastReads i := ⟨h.last, h.ends⟩

theorem lowered_reset : Lowered reset := by
  refine ⟨List.nodup_nil, ?_, ?_, ?_, ?_⟩ <;> simp [reset, dsts]

theorem Lowered.read_lt (h : Lowered i) {v l : Nat} (hl : i.lastReadIndex v = some l) :
    v < i.regIndex := by
  obtain ⟨insn, hinsn, hv⟩ := h.ends v l hl
  have hmem := h.reads l insn hinsn v hv
  refine h.lt v ?_
  rw [← List.take_append_drop l i.insns, dsts_append]
  exact List.mem_append_left _ hmem

/-- A register more. -/
theorem Lowered.temporary (h : Lowered i) : Lowered (allocateTemporary i).1 := by
  have hsame : ∀ v l, i.lastReadIndex v = some l →
      Function.update i.lastReadIndex i.regIndex none v = some l := by
    intro v l hl
    rw [Function.update_of_ne (Nat.ne_of_lt (h.read_lt hl)), hl]
  refine ⟨h.nodup, fun v hv => Nat.lt_succ_of_lt (h.lt v hv), h.reads, ?_, ?_⟩
  · intro k insn hinsn v hv
    obtain ⟨l, hl, hk⟩ := h.last k insn hinsn v hv
    exact ⟨l, hsame v l hl, hk⟩
  · intro v l hl
    by_cases hv : v = i.regIndex
    · subst hv
      simp [allocateTemporary] at hl
    · simp only [allocateTemporary, Function.update_of_ne hv] at hl
      exact h.ends v l hl

/-- An instruction more. -/
theorem Lowered.add (h : Lowered i) {insn : x86Instruction}
    (hdst : ∀ d, insn.dst = some d → d < i.regIndex ∧ d ∉ dsts i.insns)
    (hreads : ∀ v ∈ insn.reads, v ∈ dsts i.insns) : Lowered (i.add insn) := by
  refine ⟨?_, ?_, ?_, ?_, ?_⟩
  · simp only [inter.add, dsts_append, dsts_singleton]
    refine List.nodup_append.mpr ⟨h.nodup, ?_, ?_⟩
    · cases insn.dst <;> simp
    · intro v hv d hd
      exact ne_of_mem_of_not_mem hv (hdst d (Option.mem_toList.mp hd)).2
  · intro v hv
    simp only [inter.add, dsts_append, dsts_singleton] at hv
    rcases List.mem_append.mp hv with hv | hv
    · exact h.lt v hv
    · exact (hdst v (Option.mem_toList.mp hv)).1
  · intro k insn' hinsn v hv
    simp only [inter.add] at hinsn ⊢
    rcases Nat.lt_or_ge k i.insns.length with hk | hk
    · rw [List.getElem?_append_left hk] at hinsn
      rw [List.take_append_of_le_length hk.le]
      exact h.reads k insn' hinsn v hv
    · rw [List.getElem?_append_right hk, List.getElem?_singleton] at hinsn
      split_ifs at hinsn with hz
      obtain rfl := Option.some.inj hinsn
      rw [List.take_append_of_le_length (by omega), List.take_of_length_le hk]
      exact hreads v hv
  · exact (h.lastReads.add insn).last
  · exact (h.lastReads.add insn).ends

theorem Lowered.fresh (h : Lowered i) {k d : Nat} {insn : x86Instruction}
    (hinsn : i.insns[k]? = some insn) (hd : insn.dst = some d) : d ∉ dsts (i.insns.take k) :=
  h.writtenOnce.fresh hinsn hd

theorem Lowered.later (h : Lowered i) {k d l : Nat} {insn : x86Instruction}
    (hinsn : i.insns[k]? = some insn) (hd : insn.dst = some d) (hl : i.lastReadIndex d = some l) :
    k < l :=
  h.writtenOnce.later h.lastReads hinsn hd hl

theorem Lowered.ssa (h : Lowered i) :
    LinearScan.Ssa i.lastReadIndex 0 [] (i.insns.map x86Instruction.access) :=
  h.writtenOnce.ssa h.lastReads

end lowered

/-! ## Widths of the virtual registers -/

/-- A lowered instruction writes a register of the width that it gives. -/
def x86Instruction.typed (W : Nat → width) : x86Instruction → Prop
  | .load w dst _ | .read w dst _ | .binop w _ dst _ _ => W dst = w
  | .ite dst _ trueOp falseOp => W trueOp = W dst ∧ W falseOp = W dst
  | .cast type dst _ => W dst = type.target
  | .mov_const _ _ | .store _ _ _ | .exit _ _ _ | .call _ _ _ | .write _ _ _ | .marker _ => True

/-- A lowered program whose registers have the widths `W`. -/
structure Typed (W : Nat → width) (i : inter) : Prop extends Lowered i where
  typed : ∀ insn ∈ i.insns, insn.typed W

section widths

variable {i : inter} {W W' : Nat → width}

theorem typed_congr {insn : x86Instruction} (hreads : ∀ v ∈ insn.reads, W' v = W v)
    (hdst : ∀ d, insn.dst = some d → W' d = W d) (h : insn.typed W) : insn.typed W' := by
  cases insn with
  | load w dst _ | read w dst _ | binop w _ dst _ _ | cast type dst _ => exact (hdst dst rfl).trans h
  | ite dst pred trueOp falseOp =>
    have htrue := hreads trueOp (by simp [x86Instruction.reads])
    have hfalse := hreads falseOp (by simp [x86Instruction.reads])
    rw [x86Instruction.typed, htrue, hfalse, hdst dst rfl]
    exact h
  | mov_const _ _ | store _ _ _ | exit _ _ _ | call _ _ _ | write _ _ _ | marker _ => trivial

/-- The widths of registers that are not allocated yet do not matter. -/
theorem Typed.congr (h : Typed W i) (hsame : ∀ v < i.regIndex, W' v = W v) : Typed W' i := by
  refine ⟨h.toLowered, ?_⟩
  intro insn hmem
  obtain ⟨k, hk⟩ := List.mem_iff_getElem?.mp hmem
  refine typed_congr ?_ ?_ (h.typed insn hmem)
  · intro v hv
    obtain ⟨l, hl, -⟩ := h.last k insn hk v hv
    exact hsame v (h.read_lt hl)
  · intro d hd
    exact hsame d (h.lt d (List.mem_filterMap.mpr ⟨insn, hmem, hd⟩))

theorem Typed.temporary (h : Typed W i) : Typed W (allocateTemporary i).1 :=
  ⟨h.toLowered.temporary, h.typed⟩

theorem Typed.add (h : Typed W i) {insn : x86Instruction}
    (hdst : ∀ d, insn.dst = some d → d < i.regIndex ∧ d ∉ dsts i.insns)
    (hreads : ∀ v ∈ insn.reads, v ∈ dsts i.insns) (htyped : insn.typed W) : Typed W (i.add insn) := by
  refine ⟨h.toLowered.add hdst hreads, ?_⟩
  intro insn' hmem
  rcases List.mem_append.mp hmem with hmem | hmem
  · exact h.typed insn' hmem
  · rwa [List.mem_singleton.mp hmem]

/-- From `i` to `i'` there are `n` registers more, and `ds` are defined; the registers
    of the representation stay. -/
structure Defines (i i' : inter) (n : Nat) (ds : List Nat) : Prop where
  backend : i'.backend = i.backend
  regIndex : i'.regIndex = i.regIndex + n
  dsts : dsts i'.insns = dsts i.insns ++ ds

theorem Defines.trans {i' i'' : inter} {n n' : Nat} {ds ds' : List Nat} (h : Defines i i' n ds)
    (h' : Defines i' i'' n' ds') : Defines i i'' (n + n') (ds ++ ds') := by
  refine ⟨h'.backend.trans h.backend, ?_, ?_⟩
  · rw [h'.regIndex, h.regIndex, Nat.add_assoc]
  · rw [h'.dsts, h.dsts, List.append_assoc]

theorem defines_add (i : inter) (insn : x86Instruction) :
    Defines i (i.add insn) 0 insn.dst.toList := by
  refine ⟨rfl, rfl, ?_⟩
  simp only [inter.add, dsts_append, dsts_singleton]

/-- An instruction that writes a temporary. The flags `isConstant` are left open. -/
def inter.add_temporary (i : inter) (f : Nat → Bool) (insn : x86Instruction) : inter :=
  { (allocateTemporary i).1.add insn with isConstant := f }

theorem Typed.add_temporary (h : Typed W i) (f : Nat → Bool) (insn : x86Instruction)
    (hdst : insn.dst = some i.regIndex) (hreads : ∀ v ∈ insn.reads, v ∈ dsts i.insns)
    (htyped : insn.typed W) : Typed W (i.add_temporary f insn) ∧
      Defines i (i.add_temporary f insn) 1 [i.regIndex] := by
  have hadd : Typed W ((allocateTemporary i).1.add insn) := by
    refine h.temporary.add ?_ hreads htyped
    intro d hd
    obtain rfl := Option.some.inj (hd.symm.trans hdst)
    exact ⟨Nat.lt_succ_self _, fun hmem => Nat.lt_irrefl _ (h.lt _ hmem)⟩
  refine ⟨⟨⟨hadd.nodup, hadd.lt, hadd.reads, hadd.last, hadd.ends⟩, hadd.typed⟩, ?_⟩
  have hdef := defines_add (allocateTemporary i).1 insn
  rw [hdst] at hdef
  exact ⟨hdef.backend, rfl, hdef.dsts⟩

/-- A narrow arithmetic shift takes three temporaries. -/
theorem add_asr_narrow {w : width} (hw : sign_shift w ≠ 0) (i : inter) (dst op1 op2 : Nat) :
    ∃ f₁ f₂ f₃, add_asr i w dst op1 op2 =
      (((i.add_temporary f₁ (.mov_const i.regIndex (BitVec.ofNat 64 (sign_shift w)))).add_temporary
        f₂ (.binop .w64 .SHL (i.regIndex + 1) op1 i.regIndex)).add_temporary
          f₃ (.binop .w64 .ASR (i.regIndex + 2) (i.regIndex + 1) i.regIndex)).add
            (.binop w .ASR dst (i.regIndex + 2) op2) := by
  unfold add_asr
  rw [if_pos hw]
  exact ⟨_, _, _, rfl⟩

theorem add_asr_wide {w : width} (hw : ¬ sign_shift w ≠ 0) (i : inter) (dst op1 op2 : Nat) :
    add_asr i w dst op1 op2 = i.add (.binop w .ASR dst op1 op2) := by
  unfold add_asr
  rw [if_neg hw]

theorem Typed.asr (h : Typed W i) (w : width) (dst op1 op2 : Nat)
    (hdst : dst < i.regIndex ∧ dst ∉ dsts i.insns) (hop1 : op1 ∈ dsts i.insns)
    (hop2 : op2 ∈ dsts i.insns) (hw : W dst = w) (htemps : ∀ v, i.regIndex ≤ v → W v = .w64) :
    Typed W (add_asr i w dst op1 op2) ∧
      ∃ n ds, Defines i (add_asr i w dst op1 op2) n (ds ++ [dst]) := by
  by_cases hshift : sign_shift w ≠ 0
  · obtain ⟨f₁, f₂, f₃, hasr⟩ := add_asr_narrow hshift i dst op1 op2
    rw [hasr]
    obtain ⟨h₁, hdef₁⟩ := h.add_temporary f₁
      (.mov_const i.regIndex (BitVec.ofNat 64 (sign_shift w))) rfl
      (by simp [x86Instruction.reads]) trivial
    generalize i.add_temporary f₁ _ = i₁ at h₁ hdef₁ ⊢
    obtain ⟨h₂, hdef₂⟩ := h₁.add_temporary f₂
      (.binop .w64 .SHL (i.regIndex + 1) op1 i.regIndex) (by rw [hdef₁.regIndex]; rfl)
      (by simp [x86Instruction.reads, hdef₁.dsts, hop1]) (htemps _ (by omega))
    replace hdef₂ := hdef₁.trans hdef₂
    generalize i₁.add_temporary f₂ _ = i₂ at h₂ hdef₂ ⊢
    rw [hdef₁.regIndex] at hdef₂
    obtain ⟨h₃, hdef₃⟩ := h₂.add_temporary f₃
      (.binop .w64 .ASR (i.regIndex + 2) (i.regIndex + 1) i.regIndex)
      (by rw [hdef₂.regIndex]; rfl) (by simp [x86Instruction.reads, hdef₂.dsts])
      (htemps _ (by omega))
    replace hdef₃ := hdef₂.trans hdef₃
    generalize i₂.add_temporary f₃ _ = i₃ at h₃ hdef₃ ⊢
    rw [hdef₂.regIndex] at hdef₃
    refine ⟨h₃.add ?_ ?_ hw, _, _, hdef₃.trans (defines_add i₃ _)⟩
    · rintro d ⟨⟩
      refine ⟨by rw [hdef₃.regIndex]; omega, ?_⟩
      -- the temporaries come after it
      simp only [hdef₃.dsts, List.mem_append, List.mem_singleton, not_or]
      exact ⟨hdst.2, by omega⟩
    · simp [x86Instruction.reads, hdef₃.dsts, hop2]
  · rw [add_asr_wide hshift]
    refine ⟨h.add ?_ ?_ hw, 0, [], defines_add i _⟩
    · rintro d ⟨⟩
      exact hdst
    · simp [x86Instruction.reads, hop1, hop2]

end widths

/-! ## One instruction of the representation -/

/-- An instruction over the virtual registers that `b` gives. `is_patchable` is that
    of an exit. -/
def lower (b : irRegister → Nat) (is_patchable : Bool) : irInstruction → x86Instruction
  | .mov _ dst value => .mov_const (b dst) value
  | .load w dst address => .load w (b dst) (b address)
  | .store w src address => .store w (b src) (b address)
  | .binop type w dst op1 op2 => .binop w type (b dst) (b op1) (b op2)
  | .ite _ dst pred trueOp falseOp => .ite (b dst) (b pred) (b trueOp) (b falseOp)
  | .cast type dst op => .cast type (b dst) (b op)
  | .exit value pred => .exit (b value) (pred.map b) is_patchable
  | .call address param result => .call (b address) (fun i => (param i).map b) (result.map b)
  | .read_context w dst offset => .read w (b dst) offset
  | .write_context w src offset => .write w (b src) offset
  | .marker value => .marker value

theorem lower_dst (b : irRegister → Nat) (p : Bool) (insn : irInstruction) :
    (lower b p insn).dst = insn.dst.map b := by
  cases insn <;> rfl

theorem lower_reads (b : irRegister → Nat) (p : Bool) (insn : irInstruction) :
    (lower b p insn).reads = insn.reads.map b := by
  cases insn with
  | call address param result =>
    simp only [lower, x86Instruction.reads, irInstruction.reads, List.map_cons,
      ← List.reduceOption_map, List.map_ofFn]
    rfl
  | exit value pred => cases pred <;> rfl
  | _ => rfl

theorem lower_typed {W : Nat → width} {b : irRegister → Nat} (p : Bool) {insn : irInstruction}
    (hreads : ∀ r ∈ insn.reads, W (b r) = r.type) (hdst : ∀ d, insn.dst = some d → W (b d) = d.type)
    (h : insn.typed) : (lower b p insn).typed W := by
  cases insn with
  | load w dst _ | read_context w dst _ | cast type dst _ => exact (hdst dst rfl).trans h
  | binop type w dst _ _ => exact (hdst dst rfl).trans h.1
  | ite w dst pred trueOp falseOp =>
    have htrue := hreads trueOp (by simp [irInstruction.reads])
    have hfalse := hreads falseOp (by simp [irInstruction.reads])
    obtain ⟨h₁, h₂, h₃⟩ := h
    refine ⟨?_, ?_⟩
    · rw [htrue, hdst dst rfl, h₁]
    · rw [hfalse, hdst dst rfl, h₁, h₂, h₃]
  | mov _ _ _ | store _ _ _ | exit _ _ | call _ _ _ | write_context _ _ _ | marker _ => trivial

/-- The register that the lowered program has for one of the representation. -/
def inter.reg (i : inter) (r : irRegister) : Nat := (i.backend r.index).getD 0

/-- The state once the register that an instruction writes has been allocated. -/
def inter.define (i : inter) : Option irRegister → inter
  | some d => (allocateRegister i d).1
  | none => i

section instruction

variable {i : inter} {lastReadIndex : Nat → Option Nat}

theorem allocateRegister_known {r : irRegister} (h : (i.backend r.index).isSome) :
    allocateRegister i r = (i, i.reg r) := by
  obtain ⟨v, hv⟩ := Option.isSome_iff_exists.mp h
  simp [allocateRegister, inter.reg, hv]

theorem allocateRegister_new {r : irRegister} (h : i.backend r.index = none) :
    allocateRegister i r = ({ (allocateTemporary i).1 with
      backend := Function.update i.backend r.index (some i.regIndex) }, i.regIndex) := by
  simp [allocateRegister, allocateTemporary, h]

theorem allocateOptional_known {r : Option irRegister}
    (h : ∀ q, r = some q → (i.backend q.index).isSome) :
    allocateOptional i r = (i, r.map i.reg) := by
  cases r with
  | none => rfl
  | some q => simp [allocateOptional, allocateRegister_known (h q rfl)]

/-- What an instruction reads has registers, and what it writes is new. -/
structure Ready (i : inter) (insn : irInstruction) : Prop where
  reads : ∀ r ∈ insn.reads, (i.backend r.index).isSome
  dst : ∀ d, insn.dst = some d → i.backend d.index = none

/-- The register that an instruction writes. -/
theorem allocateRegister_define (i : inter) (d : irRegister) :
    allocateRegister i d = (i.define (some d), (i.define (some d)).reg d) := by
  cases h : i.backend d.index with
  | none => simp [inter.define, inter.reg, allocateRegister_new h]
  | some v => simp [inter.define, inter.reg, allocateRegister, h]

theorem define_backend {d : Option irRegister} {r : irRegister} {v : Nat}
    (hd : ∀ d', d = some d' → i.backend d'.index = none) (h : i.backend r.index = some v) :
    (i.define d).backend r.index = some v := by
  cases d with
  | none => exact h
  | some d =>
    have hne : r.index ≠ d.index := by
      intro he
      rw [he, hd d rfl] at h
      cases h
    simp only [inter.define, allocateRegister_new (hd d rfl), Function.update_of_ne hne, h]

theorem Ready.known {insn : irInstruction} (h : Ready i insn) {r : irRegister}
    (hr : r ∈ insn.reads) : ((i.define insn.dst).backend r.index).isSome ∧
      (i.define insn.dst).reg r = i.reg r := by
  obtain ⟨v, hv⟩ := Option.isSome_iff_exists.mp (h.reads r hr)
  have hdef := define_backend h.dst hv
  exact ⟨by simp [hdef], by simp [inter.reg, hdef, hv]⟩

/-- Every instruction but a narrow arithmetic shift and a dropped read is lowered to
    one. The flags `isConstant` are left open. -/
theorem allocateInstruction_one {insn : irInstruction} (h : Ready i insn)
    (hasr : ∀ w dst op1 op2, insn = .binop .ASR w dst op1 op2 → w = .w64)
    (hdrop : ∀ w dst offset, insn = .read_context w dst offset → lastReadIndex dst.index ≠ none) :
    ∃ p c, allocateInstruction lastReadIndex i insn =
      { (i.define insn.dst).add (lower (i.define insn.dst).reg p insn) with isConstant := c } := by
  have hknown : ∀ r ∈ insn.reads, allocateRegister (i.define insn.dst) r =
      (i.define insn.dst, (i.define insn.dst).reg r) :=
    fun r hr => allocateRegister_known (h.known hr).1
  cases insn with
  | mov w dst value =>
    refine ⟨false, Function.update (i.define (some dst)).isConstant
      ((i.define (some dst)).reg dst) true, ?_⟩
    simp only [allocateInstruction, allocateRegister_define i dst]
    rfl
  | load w dst address =>
    refine ⟨false, (i.define (some dst)).isConstant, ?_⟩
    have haddress := hknown address (by simp [irInstruction.reads])
    simp only [irInstruction.dst] at haddress
    simp only [allocateInstruction, allocateRegister_define i dst, haddress]
    rfl
  | store w src address =>
    refine ⟨false, i.isConstant, ?_⟩
    have haddress := hknown address (by simp [irInstruction.reads])
    have hsrc := hknown src (by simp [irInstruction.reads])
    simp only [irInstruction.dst, inter.define] at haddress hsrc
    simp only [allocateInstruction, haddress, hsrc]
    rfl
  | binop type w dst op1 op2 =>
    refine ⟨false, (i.define (some dst)).isConstant, ?_⟩
    have hop1 := hknown op1 (by simp [irInstruction.reads])
    have hop2 := hknown op2 (by simp [irInstruction.reads])
    simp only [irInstruction.dst] at hop1 hop2
    simp only [allocateInstruction, allocateRegister_define i dst, hop1, hop2]
    split_ifs with ht
    · subst ht
      obtain rfl := hasr w dst op1 op2 rfl
      rfl
    · rfl
  | ite w dst pred trueOp falseOp =>
    refine ⟨false, (i.define (some dst)).isConstant, ?_⟩
    have hpred := hknown pred (by simp [irInstruction.reads])
    have htrue := hknown trueOp (by simp [irInstruction.reads])
    have hfalse := hknown falseOp (by simp [irInstruction.reads])
    simp only [irInstruction.dst] at hpred htrue hfalse
    simp only [allocateInstruction, allocateRegister_define i dst, hpred, htrue, hfalse]
    rfl
  | cast type dst op =>
    refine ⟨false, (i.define (some dst)).isConstant, ?_⟩
    have hop := hknown op (by simp [irInstruction.reads])
    simp only [irInstruction.dst] at hop
    simp only [allocateInstruction, allocateRegister_define i dst, hop]
    rfl
  | exit value pred =>
    refine ⟨i.isConstant (i.reg value), i.isConstant, ?_⟩
    have hvalue := hknown value (by simp [irInstruction.reads])
    have hpred := allocateOptional_known (i := i) (r := pred) fun q hq =>
      h.reads q (by simp [irInstruction.reads, hq])
    simp only [irInstruction.dst, inter.define] at hvalue
    simp only [allocateInstruction, hvalue, hpred]
    rfl
  | call address param result =>
    refine ⟨false, (i.define result).isConstant, ?_⟩
    have hparam : ∀ n, allocateOptional i (param n) = (i, (param n).map i.reg) := fun n =>
      allocateOptional_known fun q hq => h.reads q
        (List.mem_cons_of_mem _ (mem_params.mpr ⟨n, hq⟩))
    have hresult : allocateOptional i result = (i.define result, result.map (i.define result).reg) := by
      cases result with
      | none => rfl
      | some d => simp only [allocateOptional, allocateRegister_define i d, Option.map_some]
    have haddress := hknown address (by simp [irInstruction.reads])
    simp only [irInstruction.dst] at haddress
    -- the parameters got their registers before the result did
    have hregs : (![(param 0).map i.reg, (param 1).map i.reg, (param 2).map i.reg,
        (param 3).map i.reg] : Fin 4 → Option Nat) =
        fun n => (param n).map (i.define result).reg := by
      have hsame : ∀ n, (param n).map i.reg = (param n).map (i.define result).reg := by
        intro n
        cases hn : param n with
        | none => rfl
        | some q =>
          have := (h.known (List.mem_cons_of_mem _ (mem_params.mpr ⟨n, hn⟩))).2
          simp only [irInstruction.dst] at this
          simp [this]
      funext n
      rw [← hsame n]
      fin_cases n
      · rfl
      · rfl
      · rfl
      · rfl
    simp only [allocateInstruction, hparam, hresult, haddress, hregs]
    rfl
  | read_context w dst offset =>
    refine ⟨false, (i.define (some dst)).isConstant, ?_⟩
    simp only [allocateInstruction, if_pos (hdrop w dst offset rfl), allocateRegister_define i dst]
    rfl
  | write_context w src offset =>
    refine ⟨false, i.isConstant, ?_⟩
    have hsrc := hknown src (by simp [irInstruction.reads])
    simp only [irInstruction.dst, inter.define] at hsrc
    simp only [allocateInstruction, hsrc]
    rfl
  | marker value => exact ⟨false, i.isConstant, rfl⟩

end instruction

end Umeq.Jitter.X86_64
