import Umeq.Jitter.X8664.Twin
import Umeq.Jitter.I386.Backend

/-! # Two lowerings of the same instructions, on i386

    The state of this back end is that of the x86_64 one and the registers that are pairs, so
    that what is known of the former applies. The places are those of halves of registers.
-/

namespace Umeq.Jitter.I386

open Words
open X86_64 (x86Instruction Known Keeps known_cons
  known_two known_three mem_four)

/-- The same tables of registers, the last reads apart. -/
structure Alike (i i' : inter) : Prop extends X86_64.Alike i.tointer i'.tointer where
  wide : i'.wide = i.wide

/-- From the states `i₀` and `i₀'`, the same registers are allocated and the same instructions
    are added. -/
inductive Twin (rs : Nat → Prop) (i₀ i₀' : inter) : inter → inter → Prop where
  | start : Twin rs i₀ i₀' i₀ i₀'
  | register {i i'} (h : Twin rs i₀ i₀' i i') (r : irRegister) (hr : rs r.index) :
      Twin rs i₀ i₀' (allocateRegister i r).1 (allocateRegister i' r).1
  | temporary {i i'} (h : Twin rs i₀ i₀' i i') :
      Twin rs i₀ i₀' (allocateTemporary i).1 (allocateTemporary i').1
  | add {i i'} (h : Twin rs i₀ i₀' i i') (x : x86Instruction) (hx : x.isMarker = false)
      (hregs : ∀ v ∈ x.regs, Known rs i₀.tointer i.tointer v) : Twin rs i₀ i₀' (i.add x) (i'.add x)
  | constant {i i'} (h : Twin rs i₀ i₀' i i') (f : Nat → Bool) :
      Twin rs i₀ i₀' ⟨{ i.tointer with isConstant := f }, i.wide⟩
        ⟨{ i'.tointer with isConstant := f }, i'.wide⟩

section tables

variable {i i' : inter}

theorem tointer_register (i : inter) (r : irRegister) :
    (allocateRegister i r).1.tointer = (X86_64.allocateRegister i.tointer r).1 ∧
      (allocateRegister i r).2 = (X86_64.allocateRegister i.tointer r).2 := by
  unfold allocateRegister X86_64.allocateRegister
  cases i.backend r.index with
  | none => exact ⟨rfl, rfl⟩
  | some v => exact ⟨rfl, rfl⟩

/-- A register is found, or it is new and a pair when it has 64 bits. -/
theorem wide_register (i : inter) (r : irRegister) :
    (allocateRegister i r).1.wide = (match i.backend r.index with
      | some _ => i.wide
      | none => Function.update i.wide i.regIndex (r.type = .w64)) := by
  unfold allocateRegister
  cases i.backend r.index with
  | none => exact Function.update_idem ..
  | some v => rfl

theorem Alike.register (h : Alike i i') (r : irRegister) :
    Alike (allocateRegister i r).1 (allocateRegister i' r).1 := by
  refine ⟨?_, ?_⟩
  · rw [(tointer_register i r).1, (tointer_register i' r).1]
    exact (h.toAlike.register r).2
  · rw [wide_register, wide_register, h.backend, h.regIndex, h.wide]

theorem Alike.temporary (h : Alike i i') : Alike (allocateTemporary i).1 (allocateTemporary i').1 := by
  refine ⟨h.toAlike.temporary, ?_⟩
  show Function.update i'.wide i'.regIndex false = Function.update i.wide i.regIndex false
  rw [h.wide, h.regIndex]

theorem keeps_register (i : inter) (r : irRegister) :
    Keeps i.tointer (allocateRegister i r).1.tointer := by
  rw [(tointer_register i r).1]
  exact X86_64.keeps_register i.tointer r

theorem keeps_temporary (i : inter) : Keeps i.tointer (allocateTemporary i).1.tointer :=
  X86_64.keeps_temporary i.tointer

theorem keeps_add (i : inter) (x : x86Instruction) : Keeps i.tointer (i.add x).tointer :=
  X86_64.keeps_add i.tointer x

end tables

section twins

variable {rs : Nat → Prop} {i₀ i₀' i i' : inter}

theorem Twin.alike (h : Twin rs i₀ i₀' i i') (halike : Alike i₀ i₀') : Alike i i' := by
  induction h with
  | start => exact halike
  | register _ r _ ih => exact ih.register r
  | temporary _ ih => exact ih.temporary
  | add _ x _ _ ih => exact ⟨ih.toAlike.add x, ih.wide⟩
  | constant _ f ih => exact ⟨⟨ih.regIndex, ih.backend, rfl⟩, ih.wide⟩

/-- What is in common with the other back end. -/
theorem Twin.inner (h : Twin rs i₀ i₀' i i') :
    X86_64.Twin rs i₀.tointer i₀'.tointer i.tointer i'.tointer := by
  induction h with
  | start => exact .start
  | @register i i' _ r hr ih =>
    rw [(tointer_register i r).1, (tointer_register i' r).1]
    exact ih.register r hr
  | temporary _ ih => exact ih.temporary
  | add _ x hx hregs ih => exact ih.add x hx hregs
  | constant _ f ih => exact ih.constant f

/-- Pairs stay pairs. -/
theorem Twin.wide (h : Twin rs i₀ i₀' i i') : ∀ v < i₀.regIndex, i.wide v = i₀.wide v := by
  induction h with
  | start => exact fun _ _ => rfl
  | @register i i' h r _ ih =>
    intro v hv
    rw [wide_register]
    cases i.backend r.index with
    | some u => exact ih v hv
    | none =>
      have hne : v ≠ i.regIndex := Nat.ne_of_lt (Nat.lt_of_lt_of_le hv h.inner.keeps.regIndex)
      show Function.update i.wide i.regIndex _ v = _
      rw [Function.update_of_ne hne]
      exact ih v hv
  | @temporary i i' h ih =>
    intro v hv
    have hne : v ≠ i.regIndex := Nat.ne_of_lt (Nat.lt_of_lt_of_le hv h.inner.keeps.regIndex)
    show Function.update i.wide i.regIndex false v = _
    rw [Function.update_of_ne hne]
    exact ih v hv
  | add _ x _ _ ih => exact ih
  | constant _ f ih => exact ih

theorem Twin.operand (h : Twin rs i₀ i₀' i i') (halike : Alike i₀ i₀') {r : irRegister}
    (hr : rs r.index) : ∃ v s s', allocateRegister i r = (s, v) ∧ allocateRegister i' r = (s', v) ∧
      Twin rs i₀ i₀' s s' ∧ Known rs i₀.tointer s.tointer v ∧ Keeps i.tointer s.tointer := by
  refine ⟨(allocateRegister i r).2, (allocateRegister i r).1, (allocateRegister i' r).1, rfl, ?_,
    h.register r hr, ?_, keeps_register i r⟩
  · have hsame : (allocateRegister i' r).2 = (allocateRegister i r).2 := by
      rw [(tointer_register i r).2, (tointer_register i' r).2]
      exact ((h.alike halike).toAlike.register r).1
    rw [← hsame]
  · refine .inl ⟨r.index, hr, ?_⟩
    rw [(tointer_register i r).1, (tointer_register i r).2]
    exact X86_64.backend_register i.tointer r

theorem Twin.optional (h : Twin rs i₀ i₀' i i') (halike : Alike i₀ i₀') {r : Option irRegister}
    (hr : ∀ q, r = some q → rs q.index) : ∃ v s s', allocateOptional i r = (s, v) ∧
      allocateOptional i' r = (s', v) ∧ Twin rs i₀ i₀' s s' ∧
        (∀ u, v = some u → Known rs i₀.tointer s.tointer u) ∧ Keeps i.tointer s.tointer := by
  cases r with
  | none => exact ⟨none, i, i', rfl, rfl, h, by rintro u ⟨⟩, .refl _⟩
  | some q =>
    obtain ⟨v, s, s', hs, hs', htwin, hknown, hkeeps⟩ := h.operand halike (hr q rfl)
    refine ⟨some v, s, s', ?_, ?_, htwin, ?_, hkeeps⟩
    · simp only [allocateOptional, hs]
    · simp only [allocateOptional, hs']
    · rintro u ⟨⟩
      exact hknown

theorem Twin.temporary_known (h : Twin rs i₀ i₀' i i') (halike : Alike i₀ i₀') :
    ∃ v s s', allocateTemporary i = (s, v) ∧ allocateTemporary i' = (s', v) ∧
      Twin rs i₀ i₀' s s' ∧ Known rs i₀.tointer s.tointer v ∧ Keeps i.tointer s.tointer := by
  refine ⟨i.regIndex, (allocateTemporary i).1, (allocateTemporary i').1, rfl, ?_, h.temporary, ?_,
    keeps_temporary i⟩
  · rw [← (h.alike halike).regIndex]
    rfl
  · exact .inr ⟨h.inner.keeps.regIndex, Nat.lt_succ_self _⟩

theorem Twin.mov_const (h : Twin rs i₀ i₀' i i') (halike : Alike i₀ i₀') {dst : Nat}
    (hdst : Known rs i₀.tointer i.tointer dst) (value : BitVec 64) :
    Twin rs i₀ i₀' (add_mov_const i dst value) (add_mov_const i' dst value) := by
  have hadd : Twin rs i₀ i₀' (i.add (.mov_const dst value)) (i'.add (.mov_const dst value)) :=
    h.add _ rfl (known_cons hdst (by rintro v ⟨⟩))
  have hconst := hadd.constant (Function.update i.isConstant dst true)
  unfold add_mov_const X86_64.add_mov_const
  rw [(h.alike halike).isConstant]
  exact hconst

theorem Twin.exit (h : Twin rs i₀ i₀' i i') (halike : Alike i₀ i₀') {value : Nat} {pred : Option Nat}
    (hvalue : Known rs i₀.tointer i.tointer value)
    (hpred : ∀ q, pred = some q → Known rs i₀.tointer i.tointer q) :
    Twin rs i₀ i₀' (add_exit i value pred) (add_exit i' value pred) := by
  unfold add_exit X86_64.add_exit
  rw [(h.alike halike).isConstant]
  apply h.add _ rfl
  intro v hv
  simp only [x86Instruction.regs, x86Instruction.reads, x86Instruction.dst, Option.toList_none,
    List.append_nil, List.mem_cons, Option.mem_toList] at hv
  obtain rfl | hv := hv
  · exact hvalue
  · exact hpred v hv

theorem Twin.asr (h : Twin rs i₀ i₀' i i') (halike : Alike i₀ i₀') (w : width) {dst op1 op2 : Nat}
    (hdst : Known rs i₀.tointer i.tointer dst) (hop1 : Known rs i₀.tointer i.tointer op1)
    (hop2 : Known rs i₀.tointer i.tointer op2) :
    Twin rs i₀ i₀' (add_asr i w dst op1 op2) (add_asr i' w dst op1 op2) := by
  unfold add_asr
  split_ifs with hw
  · obtain ⟨t₁, s₁, s₁', hs₁, hs₁', h₁, ht₁, hk₁⟩ := h.temporary_known halike
    have hm := h₁.mov_const halike ht₁ (BitVec.ofNat 64 (sign_shift w))
    have hk₂ : Keeps s₁.tointer (add_mov_const s₁ t₁ (BitVec.ofNat 64 (sign_shift w))).tointer :=
      ⟨Nat.le_refl _, fun _ _ hv => hv⟩
    obtain ⟨t₂, s₂, s₂', hs₂, hs₂', h₂, ht₂, hk₃⟩ := hm.temporary_known halike
    have hkeeps₂ := hk₁.trans (hk₂.trans hk₃)
    have ht₁' := ht₁.mono (hk₂.trans hk₃)
    have hshl := h₂.add (.binop .w32 .SHL t₂ op1 t₁) rfl
      (known_three (hop1.mono hkeeps₂) ht₁' ht₂)
    obtain ⟨t₃, s₃, s₃', hs₃, hs₃', h₃, ht₃, hk₄⟩ := hshl.temporary_known halike
    have hk₅ : Keeps s₂.tointer s₃.tointer := (keeps_add s₂ _).trans hk₄
    have hasr := h₃.add (.binop .w32 .ASR t₃ t₂ t₁) rfl
      (known_three (ht₂.mono hk₅) (ht₁'.mono hk₅) ht₃)
    have hkeeps := (hkeeps₂.trans hk₅).trans (keeps_add s₃ (.binop .w32 .ASR t₃ t₂ t₁))
    have hlast := hasr.add (.binop w .ASR dst t₃ op2) rfl
      (known_three ht₃ (hop2.mono hkeeps) (hdst.mono hkeeps))
    simp only [hs₁, hs₁', hs₂, hs₂', hs₃, hs₃']
    exact hlast
  · exact h.add _ rfl (known_three hop1 hop2 hdst)

end twins

/-! ## Markers, and what comes after -/

/-- The second state has markers too. -/
structure Marked (i i' : inter) : Prop extends X86_64.Marked i.tointer i'.tointer where
  wide : i'.wide = i.wide

/-- A later state, when the registers in between are not below `base`. -/
structure Grown (base : Nat) (i s : inter) : Prop extends X86_64.Grown base i.tointer s.tointer where
  wide : ∀ v < i.regIndex, s.wide v = i.wide v

section places

variable {rs : Nat → Prop} {base : Nat} {i₀ i₀' i i' s s' : inter}

theorem Marked.alike (h : Marked i i') : Alike i i' := ⟨h.toAlike, h.wide⟩

theorem Twin.marked (h : Twin rs i₀ i₀' i i') (hmarked : Marked i₀ i₀') : Marked i i' :=
  ⟨h.inner.marked hmarked.toMarked, (h.alike hmarked.alike).wide⟩

theorem Marked.marker (h : Marked i i') (value : BitVec 32) : Marked i (i'.add (.marker value)) :=
  ⟨h.toMarked.marker value, h.wide⟩

theorem Twin.grown (h : Twin rs i₀ i₀' s s') (hrs : ∀ r, rs r → base ≤ r) (hi : Grown base i i₀) :
    Grown base i s := by
  refine ⟨h.inner.grown hrs hi.toGrown, ?_⟩
  intro v hv
  rw [h.wide v (Nat.lt_of_lt_of_le hv hi.regIndex)]
  exact hi.wide v hv

theorem Marked.allocateRegisters (h : Marked i i') : allocateRegisters i' = allocateRegisters i := by
  unfold I386.allocateRegisters
  rw [← h.insns, h.wide]
  refine LinearScan.scan_filter (access i.wide) (!·.isMarker) ?_ ?_ _ 0 0 ?_ _
  · intro x hx
    have hmarker : x.isMarker = true := by simpa using hx
    cases x with
    | marker value => rfl
    | _ => exact absurd hmarker Bool.false_ne_true
  · intro v
    rw [h.last v.1, Option.map_eq_none_iff]
  · intro m x hx hmarker v
    rw [Nat.zero_add, Nat.zero_add]
    exact h.last_iff hx (by simpa using hmarker) v.1

/-- The halves of a register are of the register. -/
theorem fst_of_mem_halves {wide : Nat → Bool} {vs : List Nat} {h : Nat × Bool}
    (hh : h ∈ vs.flatMap (halves wide)) : h.1 ∈ vs := by
  obtain ⟨v, hv, hmem⟩ := List.mem_flatMap.mp hh
  have hfst : h.1 = v := by
    unfold halves at hmem
    split_ifs at hmem
    · obtain rfl | hmem := List.mem_cons.mp hmem
      · rfl
      · rw [List.mem_singleton.mp hmem]
    · rw [List.mem_singleton.mp hmem]
  exact hfst ▸ hv

theorem fst_of_mem_access {wide : Nat → Bool} {x : x86Instruction} {h : Nat × Bool}
    (hh : h ∈ (access wide x).reads ∨ h ∈ (access wide x).writes) : h.1 ∈ x.regs := by
  obtain hh | hh := hh
  · exact List.mem_append_left _ (fst_of_mem_halves hh)
  · exact List.mem_append_right _ (fst_of_mem_halves hh)

theorem access_congr {wide wide' : Nat → Bool} {x : x86Instruction}
    (h : ∀ v ∈ x.regs, wide v = wide' v) : access wide x = access wide' x := by
  have hhalves : ∀ vs : List Nat, (∀ v ∈ vs, wide v = wide' v) →
      vs.flatMap (halves wide) = vs.flatMap (halves wide') := by
    intro vs hvs
    apply List.flatMap_congr
    intro v hv
    simp only [halves, hvs v hv]
  unfold access
  rw [hhalves _ fun v hv => h v (List.mem_append_left _ hv),
    hhalves _ fun v hv => h v (List.mem_append_right _ hv)]

/-- The registers of the first state keep their places. -/
theorem Grown.allocateRegisters (h : Grown base i s) (hi : X86_64.Bounded base i.tointer)
    {a : LinearScan.places (Nat × Bool)} (ha : allocateRegisters s = some a) :
    ∃ a₀, I386.allocateRegisters i = some a₀ ∧ ∀ v < i.regIndex, ∀ b, a.index (v, b) = a₀.index (v, b) := by
  obtain ⟨xs, hxs, hregs⟩ := h.insns
  unfold I386.allocateRegisters at ha
  rw [hxs, List.map_append] at ha
  obtain ⟨a₀, ha₀, hrest⟩ := LinearScan.scan_append ha
  refine ⟨a₀, ?_, ?_⟩
  · have haccess : i.insns.map (access s.wide) = i.insns.map (access i.wide) := by
      apply List.map_congr_left
      intro x hx
      exact access_congr fun v hv => h.wide v (hi.regs x hx v hv)
    unfold I386.allocateRegisters
    rw [← ha₀, haccess]
    apply LinearScan.scan_congr
    intro acc hacc v hv
    obtain ⟨x, hx, rfl⟩ := List.mem_map.mp hacc
    exact (h.last v.1 (hi.regs x hx v.1 (fst_of_mem_access hv))).symm
  · intro v hv b
    apply LinearScan.scan_frame hrest
    intro acc hacc hmem
    obtain ⟨x, hx, rfl⟩ := List.mem_map.mp hacc
    exact absurd (hregs x hx v (fst_of_mem_access (h := (v, b)) (.inr hmem))) (Nat.not_le_of_lt hv)

end places

section rounds

variable {i i' : inter} {last last' : Nat → Option Nat}

/-- A round does the same in two states with the same tables. -/
theorem twin_allocateInstruction {insn : irInstruction} (halike : Alike i i')
    (hmarker : ∀ value, insn ≠ .marker value)
    (hlast : ∀ w dst offset, insn = .read_context w dst offset →
      (last dst.index = none ↔ last' dst.index = none)) :
    Twin (irRegisters insn) i i' (allocateInstruction last i insn)
      (allocateInstruction last' i' insn) := by
  have hstart : Twin (irRegisters insn) i i' i i' := .start
  cases insn with
  | mov w dst value =>
    obtain ⟨d, s₁, s₁', hs₁, hs₁', h₁, hd, -⟩ := hstart.operand halike (irRegisters_dst rfl)
    simp only [allocateInstruction, hs₁, hs₁']
    exact h₁.mov_const halike hd value
  | load w dst address =>
    obtain ⟨d, s₁, s₁', hs₁, hs₁', h₁, hd, -⟩ := hstart.operand halike (irRegisters_dst rfl)
    obtain ⟨a, s₂, s₂', hs₂, hs₂', h₂, ha, hk₂⟩ :=
      h₁.operand halike (irRegisters_read List.mem_cons_self)
    simp only [allocateInstruction, hs₁, hs₁', hs₂, hs₂']
    exact h₂.add _ rfl (known_two ha (hd.mono hk₂))
  | store w src address =>
    simp only [allocateInstruction]
    split_ifs with hwide
    · obtain ⟨t, s₁, s₁', hs₁, hs₁', h₁, ht, -⟩ := hstart.temporary_known halike
      obtain ⟨a, s₂, s₂', hs₂, hs₂', h₂, ha, hk₂⟩ :=
        h₁.operand halike (irRegisters_read (q := address) (by simp [irInstruction.reads]))
      have hcast := h₂.add (.cast .c64_TO_32 t a) rfl (known_two ha (ht.mono hk₂))
      obtain ⟨x, s₃, s₃', hs₃, hs₃', h₃, hx, hk₃⟩ :=
        hcast.operand halike (irRegisters_read (q := src) (by simp [irInstruction.reads]))
      simp only [hs₁, hs₁', hs₂, hs₂', hs₃, hs₃']
      exact h₃.add _ rfl (known_two (ht.mono (hk₂.trans ((keeps_add s₂ _).trans hk₃))) hx)
    · obtain ⟨a, s₁, s₁', hs₁, hs₁', h₁, ha, -⟩ :=
        hstart.operand halike (irRegisters_read (q := address) (by simp [irInstruction.reads]))
      obtain ⟨x, s₂, s₂', hs₂, hs₂', h₂, hx, hk₂⟩ :=
        h₁.operand halike (irRegisters_read (q := src) (by simp [irInstruction.reads]))
      simp only [hs₁, hs₁', hs₂, hs₂']
      exact h₂.add _ rfl (known_two (ha.mono hk₂) hx)
  | binop type w dst op1 op2 =>
    obtain ⟨d, s₁, s₁', hs₁, hs₁', h₁, hd, -⟩ := hstart.operand halike (irRegisters_dst rfl)
    obtain ⟨a, s₂, s₂', hs₂, hs₂', h₂, ha, hk₂⟩ :=
      h₁.operand halike (irRegisters_read (q := op1) (by simp [irInstruction.reads]))
    obtain ⟨b, s₃, s₃', hs₃, hs₃', h₃, hb, hk₃⟩ :=
      h₂.operand halike (irRegisters_read (q := op2) (by simp [irInstruction.reads]))
    simp only [allocateInstruction, hs₁, hs₁', hs₂, hs₂', hs₃, hs₃']
    have hd := hd.mono (hk₂.trans hk₃)
    split_ifs with htype
    · exact h₃.asr halike w hd (ha.mono hk₃) hb
    · exact h₃.add _ rfl (known_three (ha.mono hk₃) hb hd)
  | ite w dst pred trueOp falseOp =>
    obtain ⟨d, s₁, s₁', hs₁, hs₁', h₁, hd, -⟩ := hstart.operand halike (irRegisters_dst rfl)
    obtain ⟨q, s₂, s₂', hs₂, hs₂', h₂, hq, hk₂⟩ :=
      h₁.operand halike (irRegisters_read (q := pred) (by simp [irInstruction.reads]))
    obtain ⟨a, s₃, s₃', hs₃, hs₃', h₃, ha, hk₃⟩ :=
      h₂.operand halike (irRegisters_read (q := trueOp) (by simp [irInstruction.reads]))
    obtain ⟨b, s₄, s₄', hs₄, hs₄', h₄, hb, hk₄⟩ :=
      h₃.operand halike (irRegisters_read (q := falseOp) (by simp [irInstruction.reads]))
    simp only [allocateInstruction, hs₁, hs₁', hs₂, hs₂', hs₃, hs₃', hs₄, hs₄']
    exact h₄.add _ rfl (known_cons (hq.mono (hk₃.trans hk₄))
      (known_three (ha.mono hk₄) hb (hd.mono (hk₂.trans (hk₃.trans hk₄)))))
  | cast type dst op =>
    obtain ⟨d, s₁, s₁', hs₁, hs₁', h₁, hd, -⟩ := hstart.operand halike (irRegisters_dst rfl)
    obtain ⟨a, s₂, s₂', hs₂, hs₂', h₂, ha, hk₂⟩ :=
      h₁.operand halike (irRegisters_read (q := op) (by simp [irInstruction.reads]))
    simp only [allocateInstruction, hs₁, hs₁', hs₂, hs₂']
    exact h₂.add _ rfl (known_two ha (hd.mono hk₂))
  | exit value pred =>
    obtain ⟨v, s₁, s₁', hs₁, hs₁', h₁, hv, -⟩ :=
      hstart.operand halike (irRegisters_read (q := value) (by simp [irInstruction.reads]))
    obtain ⟨q, s₂, s₂', hs₂, hs₂', h₂, hq, hk₂⟩ := h₁.optional halike (r := pred)
      fun q hq => irRegisters_read (by simp [irInstruction.reads, hq])
    simp only [allocateInstruction, hs₁, hs₁', hs₂, hs₂']
    exact h₂.exit halike (hv.mono hk₂) hq
  | call address param result =>
    have hparam : ∀ n q, param n = some q → irRegisters (.call address param result) q.index :=
      fun n q hq => irRegisters_read (List.mem_cons_of_mem _
        (List.reduceOption_mem_iff.mpr (List.mem_ofFn.mpr ⟨n, hq⟩)))
    obtain ⟨p₀, s₀, s₀', hs₀, hs₀', h₀, hp₀, -⟩ := hstart.optional halike (hparam 0)
    obtain ⟨p₁, s₁, s₁', hs₁, hs₁', h₁, hp₁, hk₁⟩ := h₀.optional halike (hparam 1)
    obtain ⟨p₂, s₂, s₂', hs₂, hs₂', h₂, hp₂, hk₂⟩ := h₁.optional halike (hparam 2)
    obtain ⟨p₃, s₃, s₃', hs₃, hs₃', h₃, hp₃, hk₃⟩ := h₂.optional halike (hparam 3)
    obtain ⟨d, s₄, s₄', hs₄, hs₄', h₄, hd, hk₄⟩ := h₃.optional halike (r := result)
      fun q hq => irRegisters_dst hq
    obtain ⟨a, s₅, s₅', hs₅, hs₅', h₅, ha, hk₅⟩ :=
      h₄.operand halike (irRegisters_read (q := address) List.mem_cons_self)
    simp only [allocateInstruction, hs₀, hs₀', hs₁, hs₁', hs₂, hs₂', hs₃, hs₃', hs₄, hs₄', hs₅, hs₅']
    have hk₃ := hk₃.trans (hk₄.trans hk₅)
    have hk₂ := hk₂.trans hk₃
    have hk₁ := hk₁.trans hk₂
    apply h₅.add _ rfl
    intro v hv
    simp only [x86Instruction.regs, x86Instruction.reads, x86Instruction.dst, List.cons_append,
      List.mem_cons, List.mem_append, mem_four, Option.mem_toList] at hv
    obtain rfl | (hv | hv | hv | hv) | hv := hv
    · exact ha
    · exact (hp₀ v hv).mono hk₁
    · exact (hp₁ v hv).mono hk₂
    · exact (hp₂ v hv).mono hk₃
    · exact (hp₃ v hv).mono (hk₄.trans hk₅)
    · exact (hd v hv).mono hk₅
  | read_context w dst offset =>
    simp only [allocateInstruction, ne_eq, hlast w dst offset rfl]
    split_ifs with hnone
    · exact hstart
    · obtain ⟨d, s₁, s₁', hs₁, hs₁', h₁, hd, -⟩ := hstart.operand halike (irRegisters_dst rfl)
      simp only [hs₁, hs₁']
      exact h₁.add _ rfl (known_cons hd (by rintro v ⟨⟩))
  | write_context w src offset =>
    obtain ⟨x, s₁, s₁', hs₁, hs₁', h₁, hx, -⟩ :=
      hstart.operand halike (irRegisters_read (q := src) (by simp [irInstruction.reads]))
    simp only [allocateInstruction, hs₁, hs₁']
    exact h₁.add _ rfl (known_cons hx (by rintro v ⟨⟩))
  | marker value => exact absurd rfl (hmarker value)

end rounds

end Umeq.Jitter.I386
