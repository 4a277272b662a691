import Umeq.Jitter.X8664.Backend
import Umeq.Jitter.Fragments

/-! # Two lowerings of the same instructions

    Lowering an instruction looks at the tables of the registers and at nothing that was
    lowered before, so that two states with the same tables get the same instructions.

    * `Twin`: what a round does, in two states at once.
    * `Marked`: a state and another in which there are markers too. They give the registers
      the same places (`Marked.allocateRegisters`).
    * `Grown`: a state and a later one, when what comes between has registers of its own. The
      registers of the first keep their places (`Grown.allocateRegisters`).
-/

namespace Umeq.Jitter.X86_64

open Words

def x86Instruction.isMarker : x86Instruction → Bool
  | .marker _ => true
  | _ => false

/-- The registers of an instruction. -/
def x86Instruction.regs (x : x86Instruction) : List Nat := x.reads ++ x.dst.toList

/-- The same tables of registers, the last reads apart. -/
structure Alike (i i' : inter) : Prop where
  regIndex : i'.regIndex = i.regIndex
  backend : i'.backend = i.backend
  isConstant : i'.isConstant = i.isConstant

/-- Registers of the first state keep their numbers. -/
structure Keeps (i s : inter) : Prop where
  regIndex : i.regIndex ≤ s.regIndex
  backend : ∀ r v, i.backend r = some v → s.backend r = some v

/-- A number that stands for one of the registers `rs`, or is new since `i₀`. -/
def Known (rs : Nat → Prop) (i₀ i : inter) (v : Nat) : Prop :=
  (∃ r, rs r ∧ i.backend r = some v) ∨ (i₀.regIndex ≤ v ∧ v < i.regIndex)

/-- From the states `i₀` and `i₀'`, the same registers are allocated and the same instructions
    are added; `rs` are the registers of the representation. -/
inductive Twin (rs : Nat → Prop) (i₀ i₀' : inter) : inter → inter → Prop where
  | start : Twin rs i₀ i₀' i₀ i₀'
  | register {i i'} (h : Twin rs i₀ i₀' i i') (r : irRegister) (hr : rs r.index) :
      Twin rs i₀ i₀' (allocateRegister i r).1 (allocateRegister i' r).1
  | temporary {i i'} (h : Twin rs i₀ i₀' i i') :
      Twin rs i₀ i₀' (allocateTemporary i).1 (allocateTemporary i').1
  | add {i i'} (h : Twin rs i₀ i₀' i i') (x : x86Instruction) (hx : x.isMarker = false)
      (hregs : ∀ v ∈ x.regs, Known rs i₀ i v) : Twin rs i₀ i₀' (i.add x) (i'.add x)
  | constant {i i'} (h : Twin rs i₀ i₀' i i') (f : Nat → Bool) :
      Twin rs i₀ i₀' { i with isConstant := f } { i' with isConstant := f }

section tables

variable {rs : Nat → Prop} {i₀ i i' s s' : inter} {v : Nat}

theorem Keeps.refl (i : inter) : Keeps i i := ⟨Nat.le_refl _, fun _ _ h => h⟩

theorem Keeps.trans {t : inter} (h : Keeps i s) (h' : Keeps s t) : Keeps i t :=
  ⟨Nat.le_trans h.regIndex h'.regIndex, fun r v hv => h'.backend r v (h.backend r v hv)⟩

theorem Known.mono (h : Known rs i₀ i v) (hkeeps : Keeps i s) : Known rs i₀ s v := by
  obtain ⟨r, hr, hv⟩ | ⟨hle, hlt⟩ := h
  · exact .inl ⟨r, hr, hkeeps.backend r v hv⟩
  · exact .inr ⟨hle, Nat.lt_of_lt_of_le hlt hkeeps.regIndex⟩

theorem keeps_temporary (i : inter) : Keeps i (allocateTemporary i).1 :=
  ⟨Nat.le_succ _, fun _ _ h => h⟩

/-- A register is found, or gets the next number. -/
theorem allocateRegister_cases (i : inter) (r : irRegister) :
    (∃ v, i.backend r.index = some v ∧ allocateRegister i r = (i, v)) ∨
    (i.backend r.index = none ∧ allocateRegister i r =
      ({ (allocateTemporary i).1 with backend := Function.update i.backend r.index (some i.regIndex) },
        i.regIndex)) := by
  cases h : i.backend r.index with
  | some v =>
    refine .inl ⟨v, rfl, ?_⟩
    simp only [allocateRegister, h]
  | none =>
    refine .inr ⟨rfl, ?_⟩
    simp only [allocateRegister, h]
    rfl

theorem keeps_register (i : inter) (r : irRegister) : Keeps i (allocateRegister i r).1 := by
  obtain ⟨v, -, heq⟩ | ⟨hnone, heq⟩ := allocateRegister_cases i r
  · rw [heq]
    exact .refl i
  · rw [heq]
    refine ⟨Nat.le_succ _, ?_⟩
    intro r' v hv
    have hne : r' ≠ r.index := by
      rintro rfl
      rw [hnone] at hv
      cases hv
    show Function.update i.backend r.index (some i.regIndex) r' = some v
    rw [Function.update_of_ne hne, hv]

theorem backend_register (i : inter) (r : irRegister) :
    (allocateRegister i r).1.backend r.index = some (allocateRegister i r).2 := by
  obtain ⟨v, hv, heq⟩ | ⟨-, heq⟩ := allocateRegister_cases i r
  · rw [heq]
    exact hv
  · rw [heq]
    exact Function.update_self ..

theorem keeps_add (i : inter) (x : x86Instruction) : Keeps i (i.add x) :=
  ⟨Nat.le_refl _, fun _ _ h => h⟩

theorem Alike.register (h : Alike i i') (r : irRegister) :
    (allocateRegister i' r).2 = (allocateRegister i r).2 ∧
      Alike (allocateRegister i r).1 (allocateRegister i' r).1 := by
  obtain ⟨v, hv, heq⟩ | ⟨hnone, heq⟩ := allocateRegister_cases i r
  · have heq' : allocateRegister i' r = (i', v) := by
      simp only [allocateRegister, h.backend, hv]
    rw [heq, heq']
    exact ⟨rfl, h⟩
  · obtain ⟨v, hv, -⟩ | ⟨-, heq'⟩ := allocateRegister_cases i' r
    · rw [h.backend, hnone] at hv
      cases hv
    rw [heq, heq']
    refine ⟨h.regIndex, ?_, ?_, ?_⟩
    · simp only [allocateTemporary, h.regIndex]
    · simp only [h.backend, h.regIndex]
    · simp only [allocateTemporary, h.isConstant, h.regIndex]

theorem Alike.temporary (h : Alike i i') : Alike (allocateTemporary i).1 (allocateTemporary i').1 :=
  ⟨by simp only [allocateTemporary, h.regIndex], h.backend,
    by simp only [allocateTemporary, h.isConstant, h.regIndex]⟩

theorem Alike.add (h : Alike i i') (x : x86Instruction) : Alike (i.add x) (i'.add x) :=
  ⟨h.regIndex, h.backend, h.isConstant⟩

end tables

section twins

variable {rs : Nat → Prop} {i₀ i₀' i i' : inter}

theorem Twin.alike (h : Twin rs i₀ i₀' i i') (halike : Alike i₀ i₀') : Alike i i' := by
  induction h with
  | start => exact halike
  | register _ r _ ih => exact (ih.register r).2
  | temporary _ ih => exact ih.temporary
  | add _ x _ _ ih => exact ih.add x
  | constant _ f ih => exact ⟨ih.regIndex, ih.backend, rfl⟩

theorem Twin.keeps (h : Twin rs i₀ i₀' i i') : Keeps i₀ i := by
  induction h with
  | start => exact .refl _
  | register _ r _ ih => exact ih.trans (keeps_register _ r)
  | temporary _ ih => exact ih.trans (keeps_temporary _)
  | add _ x _ _ ih => exact ih.trans (keeps_add _ x)
  | constant _ f ih => exact ⟨ih.regIndex, ih.backend⟩

/-- A register that is allocated in both. -/
theorem Twin.operand (h : Twin rs i₀ i₀' i i') (halike : Alike i₀ i₀') {r : irRegister}
    (hr : rs r.index) : ∃ v s s', allocateRegister i r = (s, v) ∧ allocateRegister i' r = (s', v) ∧
      Twin rs i₀ i₀' s s' ∧ Known rs i₀ s v ∧ Keeps i s := by
  refine ⟨(allocateRegister i r).2, (allocateRegister i r).1, (allocateRegister i' r).1, rfl, ?_,
    h.register r hr, ?_, keeps_register i r⟩
  · rw [← ((h.alike halike).register r).1]
  · exact .inl ⟨r.index, hr, backend_register i r⟩

theorem Twin.optional (h : Twin rs i₀ i₀' i i') (halike : Alike i₀ i₀') {r : Option irRegister}
    (hr : ∀ q, r = some q → rs q.index) : ∃ v s s', allocateOptional i r = (s, v) ∧
      allocateOptional i' r = (s', v) ∧ Twin rs i₀ i₀' s s' ∧ (∀ u, v = some u → Known rs i₀ s u) ∧
        Keeps i s := by
  cases r with
  | none => exact ⟨none, i, i', rfl, rfl, h, by rintro u ⟨⟩, .refl i⟩
  | some q =>
    obtain ⟨v, s, s', hs, hs', htwin, hknown, hkeeps⟩ := h.operand halike (hr q rfl)
    refine ⟨some v, s, s', ?_, ?_, htwin, ?_, hkeeps⟩
    · simp only [allocateOptional, hs]
    · simp only [allocateOptional, hs']
    · rintro u ⟨⟩
      exact hknown

/-- A register of the back end's own. -/
theorem Twin.temporary_known (h : Twin rs i₀ i₀' i i') (halike : Alike i₀ i₀') :
    ∃ v s s', allocateTemporary i = (s, v) ∧ allocateTemporary i' = (s', v) ∧
      Twin rs i₀ i₀' s s' ∧ Known rs i₀ s v ∧ Keeps i s := by
  refine ⟨i.regIndex, (allocateTemporary i).1, (allocateTemporary i').1, rfl, ?_, h.temporary, ?_,
    keeps_temporary i⟩
  · rw [← (h.alike halike).regIndex]
    rfl
  · exact .inr ⟨h.keeps.regIndex, Nat.lt_succ_self _⟩

theorem Twin.mov_const (h : Twin rs i₀ i₀' i i') (halike : Alike i₀ i₀') {dst : Nat}
    (hdst : Known rs i₀ i dst) (value : BitVec 64) :
    Twin rs i₀ i₀' (add_mov_const i dst value) (add_mov_const i' dst value) := by
  have hadd : Twin rs i₀ i₀' (i.add (.mov_const dst value)) (i'.add (.mov_const dst value)) := by
    apply h.add _ rfl
    simpa [x86Instruction.regs, x86Instruction.reads, x86Instruction.dst] using hdst
  have hconst := hadd.constant (Function.update i.isConstant dst true)
  unfold add_mov_const
  rw [(h.alike halike).isConstant]
  exact hconst

theorem Twin.exit (h : Twin rs i₀ i₀' i i') (halike : Alike i₀ i₀') {value : Nat} {pred : Option Nat}
    (hvalue : Known rs i₀ i value) (hpred : ∀ q, pred = some q → Known rs i₀ i q) :
    Twin rs i₀ i₀' (add_exit i value pred) (add_exit i' value pred) := by
  unfold add_exit
  rw [(h.alike halike).isConstant]
  apply h.add _ rfl
  intro v hv
  simp only [x86Instruction.regs, x86Instruction.reads, x86Instruction.dst, Option.toList_none,
    List.append_nil, List.mem_cons, Option.mem_toList] at hv
  obtain rfl | hv := hv
  · exact hvalue
  · exact hpred v hv

/-- What both states get. -/
theorem Twin.pieces (h : Twin rs i₀ i₀' i i') :
    ∃ xs, i.insns = i₀.insns ++ xs ∧ i'.insns = i₀'.insns ++ xs ∧
      ∀ x ∈ xs, x.isMarker = false ∧ ∀ v ∈ x.regs, Known rs i₀ i v := by
  induction h with
  | start => exact ⟨[], by simp⟩
  | @register i i' _ r _ ih =>
    obtain ⟨xs, hxs, hxs', hregs⟩ := ih
    have hinsns : ∀ i : inter, (allocateRegister i r).1.insns = i.insns := by
      intro i
      obtain ⟨v, -, heq⟩ | ⟨-, heq⟩ := allocateRegister_cases i r
      · rw [heq]
      · rw [heq]
        rfl
    refine ⟨xs, (hinsns _).trans hxs, (hinsns _).trans hxs', ?_⟩
    exact fun x hx => ⟨(hregs x hx).1, fun v hv => ((hregs x hx).2 v hv).mono (keeps_register i r)⟩
  | @temporary i i' _ ih =>
    obtain ⟨xs, hxs, hxs', hregs⟩ := ih
    refine ⟨xs, hxs, hxs', ?_⟩
    exact fun x hx => ⟨(hregs x hx).1, fun v hv => ((hregs x hx).2 v hv).mono (keeps_temporary i)⟩
  | add _ y hy hregs' ih =>
    obtain ⟨xs, hxs, hxs', hregs⟩ := ih
    refine ⟨xs ++ [y], ?_, ?_, ?_⟩
    · rw [← List.append_assoc, ← hxs]
      rfl
    · rw [← List.append_assoc, ← hxs']
      rfl
    · intro x hx
      obtain hx | hx := List.mem_append.mp hx
      · exact hregs x hx
      · obtain rfl := List.mem_singleton.mp hx
        exact ⟨hy, hregs'⟩
  | constant _ f ih => exact ih

end twins

/-! ## Markers -/

/-- The second state has markers too. A last read is counted without them in the first. -/
structure Marked (i i' : inter) : Prop extends Alike i i' where
  insns : i'.insns.filter (!·.isMarker) = i.insns
  last : ∀ v, i.lastReadIndex v =
    (i'.lastReadIndex v).map fun l => (i'.insns.take l).countP (!·.isMarker)
  ends : ∀ v l, i'.lastReadIndex v = some l → ∃ x, i'.insns[l]? = some x ∧ x.isMarker = false

section marked

variable {rs : Nat → Prop} {i₀ i₀' i i' : inter}

theorem marked_reset : Marked reset reset := by
  refine ⟨⟨rfl, rfl, rfl⟩, rfl, fun v => rfl, ?_⟩
  rintro v l ⟨⟩

theorem Marked.ends_lt (h : Marked i i') {v l : Nat} (hl : i'.lastReadIndex v = some l) :
    l < i'.insns.length := by
  obtain ⟨x, hx, -⟩ := h.ends v l hl
  exact (List.getElem?_eq_some_iff.mp hx).1

/-- A register that is new has not been read in either. -/
theorem Marked.temporary (h : Marked i i') : Marked (allocateTemporary i).1 (allocateTemporary i').1 := by
  refine ⟨h.toAlike.temporary, h.insns, ?_, ?_⟩
  · intro v
    simp only [allocateTemporary, h.regIndex]
    by_cases hv : v = i.regIndex
    · subst hv
      rw [Function.update_self, Function.update_self]
      rfl
    · rw [Function.update_of_ne hv, Function.update_of_ne hv]
      exact h.last v
  · intro v l hl
    simp only [allocateTemporary, h.regIndex] at hl
    by_cases hv : v = i.regIndex
    · subst hv
      rw [Function.update_self] at hl
      cases hl
    · rw [Function.update_of_ne hv] at hl
      exact h.ends v l hl

theorem Marked.register (h : Marked i i') (r : irRegister) :
    Marked (allocateRegister i r).1 (allocateRegister i' r).1 := by
  have halike := (h.toAlike.register r).2
  obtain ⟨v, hv, heq⟩ | ⟨hnone, heq⟩ := allocateRegister_cases i r
  · have heq' : allocateRegister i' r = (i', v) := by
      simp only [allocateRegister, h.backend, hv]
    rw [heq, heq']
    exact h
  · obtain ⟨v, hv, -⟩ | ⟨-, heq'⟩ := allocateRegister_cases i' r
    · rw [h.backend, hnone] at hv
      cases hv
    rw [heq, heq'] at halike ⊢
    exact ⟨halike, h.temporary.insns, h.temporary.last, h.temporary.ends⟩

theorem Marked.add (h : Marked i i') {x : x86Instruction} (hx : x.isMarker = false) :
    Marked (i.add x) (i'.add x) := by
  have hlen : i'.insns.countP (!·.isMarker) = i.insns.length := by
    rw [← h.insns, List.countP_eq_length_filter]
  refine ⟨h.toAlike.add x, ?_, ?_, ?_⟩
  · simp only [inter.add, List.filter_append, h.insns]
    simp [hx]
  · intro v
    simp only [inter.add]
    split_ifs with hv
    · simp [hlen]
    · rw [h.last v]
      cases hl : i'.lastReadIndex v with
      | none => rfl
      | some l =>
        simp only [Option.map_some, List.take_append_of_le_length (Nat.le_of_lt (h.ends_lt hl))]
  · intro v l hl
    simp only [inter.add] at hl ⊢
    split_ifs at hl with hv
    · obtain rfl := Option.some.inj hl
      exact ⟨x, by simp, hx⟩
    · obtain ⟨y, hy, hmarker⟩ := h.ends v l hl
      exact ⟨y, by rw [List.getElem?_append_left (h.ends_lt hl), hy], hmarker⟩

/-- A marker in the second state. -/
theorem Marked.marker (h : Marked i i') (value : BitVec 32) : Marked i (i'.add (.marker value)) := by
  refine ⟨⟨h.regIndex, h.backend, h.isConstant⟩, ?_, ?_, ?_⟩
  · simp only [inter.add, List.filter_append, h.insns]
    exact List.append_nil _
  · intro v
    rw [h.last v]
    simp only [inter.add, x86Instruction.reads, List.not_mem_nil, if_false]
    cases hl : i'.lastReadIndex v with
    | none => rfl
    | some l =>
      simp only [Option.map_some, List.take_append_of_le_length (Nat.le_of_lt (h.ends_lt hl))]
  · intro v l hl
    simp only [inter.add, x86Instruction.reads, List.not_mem_nil, if_false] at hl ⊢
    obtain ⟨y, hy, hmarker⟩ := h.ends v l hl
    exact ⟨y, by rw [List.getElem?_append_left (h.ends_lt hl), hy], hmarker⟩

theorem Twin.marked (h : Twin rs i₀ i₀' i i') (hmarked : Marked i₀ i₀') : Marked i i' := by
  induction h with
  | start => exact hmarked
  | register _ r _ ih => exact ih.register r
  | temporary _ ih => exact ih.temporary
  | add _ x hx _ ih => exact ih.add hx
  | constant _ f ih => exact ⟨⟨ih.regIndex, ih.backend, rfl⟩, ih.insns, ih.last, ih.ends⟩

theorem countP_take_lt {α : Type} {p : α → Bool} {xs : List α} {l m : Nat} {x : α} (hlm : l < m)
    (hx : xs[l]? = some x) (hp : p x = true) : (xs.take l).countP p < (xs.take m).countP p := by
  have hsplit : xs.take (l + 1) = xs.take l ++ [x] := by
    rw [List.take_add_one, hx, Option.toList_some]
  have hle : (xs.take (l + 1)).countP p ≤ (xs.take m).countP p :=
    (List.take_sublist_take_left (by omega)).countP_le
  rw [hsplit, List.countP_append] at hle
  have hone : [x].countP p = 1 := by simp [hp]
  omega

theorem access_marker {x : x86Instruction} (hx : x.isMarker = true) : x.access = ⟨[], []⟩ := by
  cases x with
  | marker value => rfl
  | _ => exact absurd hx Bool.false_ne_true

/-- The last reads are the same instructions in both states. -/
theorem Marked.last_iff (h : Marked i i') {m : Nat} {x : x86Instruction} (hx : i'.insns[m]? = some x)
    (hmarker : x.isMarker = false) (v : Nat) : i'.lastReadIndex v = some m ↔
      i.lastReadIndex v = some ((i'.insns.take m).countP (!·.isMarker)) := by
  rw [h.last v]
  constructor
  · intro hl
    rw [hl]
    rfl
  · intro hl
    obtain ⟨l, hl', hcount⟩ := Option.map_eq_some_iff.mp hl
    obtain ⟨y, hy, hmarker'⟩ := h.ends v l hl'
    rw [hl']
    obtain hlt | rfl | hlt := Nat.lt_trichotomy l m
    · have := countP_take_lt (p := (!·.isMarker)) hlt hy (by simp [hmarker'])
      omega
    · rfl
    · have := countP_take_lt (p := (!·.isMarker)) hlt hx (by simp [hmarker])
      omega

theorem Marked.allocateRegisters (h : Marked i i') : allocateRegisters i' = allocateRegisters i := by
  unfold X86_64.allocateRegisters
  rw [← h.insns]
  refine LinearScan.scan_filter x86Instruction.access (!·.isMarker) ?_ ?_ _ 0 0 ?_ _
  · intro x hx
    exact access_marker (by simpa using hx)
  · intro v
    rw [h.last v, Option.map_eq_none_iff]
  · intro m x hx hmarker v
    rw [Nat.zero_add, Nat.zero_add]
    exact h.last_iff hx (by simpa using hmarker) v

end marked

/-! ## What comes after -/

/-- The registers of the representation are below `base`, and the numbers that stand for them
    are those given out so far. -/
structure Bounded (base : Nat) (i : inter) : Prop where
  backend : ∀ r v, i.backend r = some v → r < base ∧ v < i.regIndex
  regs : ∀ x ∈ i.insns, ∀ v ∈ x.regs, v < i.regIndex

/-- A later state, when the registers in between are not below `base`. -/
structure Grown (base : Nat) (i s : inter) : Prop where
  regIndex : i.regIndex ≤ s.regIndex
  backend : ∀ r v, base ≤ r → s.backend r = some v → i.regIndex ≤ v
  insns : ∃ xs, s.insns = i.insns ++ xs ∧ ∀ x ∈ xs, ∀ v ∈ x.regs, i.regIndex ≤ v
  last : ∀ v < i.regIndex, s.lastReadIndex v = i.lastReadIndex v

section grown

variable {rs : Nat → Prop} {base : Nat} {i₀ i₀' i i' s : inter}

theorem bounded_reset : Bounded 0 reset := by
  refine ⟨?_, ?_⟩
  · rintro r v ⟨⟩
  · rintro x ⟨⟩

theorem Bounded.known (h : Bounded base i) {v : Nat} (hv : Known rs i₀ i v) : v < i.regIndex := by
  obtain ⟨r, -, hv⟩ | ⟨-, hv⟩ := hv
  · exact (h.backend r v hv).2
  · exact hv

theorem Bounded.mono (h : Bounded base i) {base' : Nat} (hle : base ≤ base') : Bounded base' i :=
  ⟨fun r v hv => ⟨Nat.lt_of_lt_of_le (h.backend r v hv).1 hle, (h.backend r v hv).2⟩, h.regs⟩

theorem Bounded.temporary (h : Bounded base i) : Bounded base (allocateTemporary i).1 :=
  ⟨fun r v hv => ⟨(h.backend r v hv).1, Nat.lt_succ_of_lt (h.backend r v hv).2⟩,
    fun x hx v hv => Nat.lt_succ_of_lt (h.regs x hx v hv)⟩

theorem Bounded.register (h : Bounded base i) {r : irRegister} (hr : r.index < base) :
    Bounded base (allocateRegister i r).1 := by
  obtain ⟨v, -, heq⟩ | ⟨-, heq⟩ := allocateRegister_cases i r
  · rw [heq]
    exact h
  · rw [heq]
    refine ⟨?_, h.temporary.regs⟩
    intro r' v hv
    simp only [Function.update_apply] at hv
    split_ifs at hv with hr'
    · obtain rfl := Option.some.inj hv
      exact ⟨hr' ▸ hr, Nat.lt_succ_self _⟩
    · exact h.temporary.backend r' v hv

theorem Bounded.add (h : Bounded base i) {x : x86Instruction} (hx : ∀ v ∈ x.regs, v < i.regIndex) :
    Bounded base (i.add x) := by
  refine ⟨h.backend, ?_⟩
  intro y hy
  obtain hy | hy := List.mem_append.mp hy
  · exact h.regs y hy
  · obtain rfl := List.mem_singleton.mp hy
    exact hx

theorem Twin.bounded (h : Twin rs i₀ i₀' i i') (hrs : ∀ r, rs r → r < base) (hi : Bounded base i₀) :
    Bounded base i := by
  induction h with
  | start => exact hi
  | register _ r hr ih => exact ih.register (hrs _ hr)
  | temporary _ ih => exact ih.temporary
  | add _ x _ hregs ih => exact ih.add fun v hv => ih.known (hregs v hv)
  | constant _ f ih => exact ⟨ih.backend, ih.regs⟩

theorem Bounded.grown (h : Bounded base i) : Grown base i i := by
  refine ⟨Nat.le_refl _, ?_, ⟨[], by simp⟩, fun v _ => rfl⟩
  intro r v hle hv
  exact absurd (h.backend r v hv).1 (Nat.not_lt_of_le hle)

theorem Grown.temporary (h : Grown base i s) : Grown base i (allocateTemporary s).1 := by
  refine ⟨Nat.le_succ_of_le h.regIndex, h.backend, h.insns, ?_⟩
  intro v hv
  have hne : v ≠ s.regIndex := Nat.ne_of_lt (Nat.lt_of_lt_of_le hv h.regIndex)
  show Function.update s.lastReadIndex s.regIndex none v = _
  rw [Function.update_of_ne hne]
  exact h.last v hv

theorem Grown.register (h : Grown base i s) (r : irRegister) :
    Grown base i (allocateRegister s r).1 := by
  obtain ⟨v, -, heq⟩ | ⟨-, heq⟩ := allocateRegister_cases s r
  · rw [heq]
    exact h
  · rw [heq]
    refine ⟨h.temporary.regIndex, ?_, h.temporary.insns, h.temporary.last⟩
    intro r' v hle hv
    simp only [Function.update_apply] at hv
    split_ifs at hv with hr'
    · obtain rfl := Option.some.inj hv
      exact h.regIndex
    · exact h.backend r' v hle hv

theorem Grown.add (h : Grown base i s) {x : x86Instruction} (hx : ∀ v ∈ x.regs, i.regIndex ≤ v) :
    Grown base i (s.add x) := by
  obtain ⟨xs, hxs, hregs⟩ := h.insns
  refine ⟨h.regIndex, h.backend, ⟨xs ++ [x], ?_, ?_⟩, ?_⟩
  · simp only [inter.add, hxs, List.append_assoc]
  · intro y hy
    obtain hy | hy := List.mem_append.mp hy
    · exact hregs y hy
    · obtain rfl := List.mem_singleton.mp hy
      exact hx
  · intro v hv
    have hnot : v ∉ x.reads := fun hmem =>
      absurd (hx v (List.mem_append_left _ hmem)) (Nat.not_le_of_lt hv)
    simp only [inter.add, if_neg hnot]
    exact h.last v hv

/-- A round with registers that are not below `base`. -/
theorem Twin.grown (h : Twin rs i₀ i₀' s s') (hrs : ∀ r, rs r → base ≤ r) (hi : Grown base i i₀) :
    Grown base i s := by
  induction h with
  | start => exact hi
  | register _ r _ ih => exact ih.register r
  | temporary _ ih => exact ih.temporary
  | add _ x _ hregs ih =>
    apply ih.add
    intro v hv
    obtain ⟨r, hr, hv⟩ | ⟨hle, -⟩ := hregs v hv
    · exact ih.backend r v (hrs r hr) hv
    · exact Nat.le_trans hi.regIndex hle
  | constant _ f ih => exact ⟨ih.regIndex, ih.backend, ih.insns, ih.last⟩

/-- The registers of the first state keep their places. -/
theorem Grown.allocateRegisters (h : Grown base i s) (hi : Bounded base i)
    {a : LinearScan.places Nat} (ha : allocateRegisters s = some a) :
    ∃ a₀, X86_64.allocateRegisters i = some a₀ ∧ ∀ v < i.regIndex, a.index v = a₀.index v := by
  obtain ⟨xs, hxs, hregs⟩ := h.insns
  unfold X86_64.allocateRegisters at ha
  rw [hxs, List.map_append] at ha
  obtain ⟨a₀, ha₀, hrest⟩ := LinearScan.scan_append ha
  refine ⟨a₀, ?_, ?_⟩
  · unfold X86_64.allocateRegisters
    rw [← ha₀]
    apply LinearScan.scan_congr
    intro acc hacc v hv
    obtain ⟨x, hx, rfl⟩ := List.mem_map.mp hacc
    exact (h.last v (hi.regs x hx v (List.mem_append.mpr hv))).symm
  · intro v hv
    apply LinearScan.scan_frame hrest
    intro acc hacc hmem
    obtain ⟨x, hx, rfl⟩ := List.mem_map.mp hacc
    exact absurd (hregs x hx v (List.mem_append_right _ hmem)) (Nat.not_le_of_lt hv)

end grown

/-! ## The rounds of `allocateInstructions` -/

section rounds

variable {rs : Nat → Prop} {i₀ i₀' i i' : inter} {last last' : Nat → Option Nat}

theorem known_cons {a : Nat} {l : List Nat} (ha : Known rs i₀ i a) (hl : ∀ v ∈ l, Known rs i₀ i v) :
    ∀ v ∈ a :: l, Known rs i₀ i v := List.forall_mem_cons.2 ⟨ha, hl⟩

theorem known_two {a b : Nat} (ha : Known rs i₀ i a) (hb : Known rs i₀ i b) :
    ∀ v ∈ [a, b], Known rs i₀ i v := known_cons ha (known_cons hb (by rintro v ⟨⟩))

theorem known_three {a b c : Nat} (ha : Known rs i₀ i a) (hb : Known rs i₀ i b)
    (hc : Known rs i₀ i c) : ∀ v ∈ [a, b, c], Known rs i₀ i v := known_cons ha (known_two hb hc)

theorem mem_four {p₀ p₁ p₂ p₃ : Option Nat} {v : Nat} :
    v ∈ (List.ofFn ![p₀, p₁, p₂, p₃]).reduceOption ↔
      p₀ = some v ∨ p₁ = some v ∨ p₂ = some v ∨ p₃ = some v := by
  simp [List.reduceOption_mem_iff, eq_comm]

theorem Twin.asr (h : Twin rs i₀ i₀' i i') (halike : Alike i₀ i₀') (w : width) {dst op1 op2 : Nat}
    (hdst : Known rs i₀ i dst) (hop1 : Known rs i₀ i op1) (hop2 : Known rs i₀ i op2) :
    Twin rs i₀ i₀' (add_asr i w dst op1 op2) (add_asr i' w dst op1 op2) := by
  unfold add_asr
  split_ifs with hw
  · obtain ⟨t₁, s₁, s₁', hs₁, hs₁', h₁, ht₁, hk₁⟩ := h.temporary_known halike
    have hm := h₁.mov_const halike ht₁ (BitVec.ofNat 64 (sign_shift w))
    have hk₂ : Keeps s₁ (add_mov_const s₁ t₁ (BitVec.ofNat 64 (sign_shift w))) :=
      ⟨Nat.le_refl _, fun _ _ hv => hv⟩
    obtain ⟨t₂, s₂, s₂', hs₂, hs₂', h₂, ht₂, hk₃⟩ := hm.temporary_known halike
    have hkeeps₂ := hk₁.trans (hk₂.trans hk₃)
    have ht₁' := ht₁.mono (hk₂.trans hk₃)
    have hshl := h₂.add (.binop .w64 .SHL t₂ op1 t₁) rfl
      (known_three (hop1.mono hkeeps₂) ht₁' ht₂)
    obtain ⟨t₃, s₃, s₃', hs₃, hs₃', h₃, ht₃, hk₄⟩ := hshl.temporary_known halike
    have hk₅ : Keeps s₂ s₃ := (keeps_add s₂ _).trans hk₄
    have hasr := h₃.add (.binop .w64 .ASR t₃ t₂ t₁) rfl
      (known_three (ht₂.mono hk₅) (ht₁'.mono hk₅) ht₃)
    have hkeeps := (hkeeps₂.trans hk₅).trans (keeps_add s₃ (.binop .w64 .ASR t₃ t₂ t₁))
    have hlast := hasr.add (.binop w .ASR dst t₃ op2) rfl
      (known_three ht₃ (hop2.mono hkeeps) (hdst.mono hkeeps))
    simp only [hs₁, hs₁', hs₂, hs₂', hs₃, hs₃']
    exact hlast
  · exact h.add _ rfl (known_three hop1 hop2 hdst)

/-- A round does the same in two states with the same tables. -/
theorem twin_allocateInstruction {insn : irInstruction} (halike : Alike i i')
    (hmarker : ∀ value, insn ≠ .marker value)
    (hlast : ∀ w dst offset, insn = .read_context w dst offset →
      (last dst.index = none ↔ last' dst.index = none)) :
    Twin (irRegisters insn) i i' (allocateInstruction last i insn)
      (allocateInstruction last' i' insn) := by
  have hstart : Twin (irRegisters insn) i i' i i' := .start
  cases insn with
  | mov w dst value =>
    obtain ⟨d, s₁, s₁', hs₁, hs₁', h₁, hd, -⟩ := hstart.operand halike (irRegisters_dst rfl)
    simp only [allocateInstruction, hs₁, hs₁']
    exact h₁.mov_const halike hd value
  | load w dst address =>
    obtain ⟨d, s₁, s₁', hs₁, hs₁', h₁, hd, -⟩ := hstart.operand halike (irRegisters_dst rfl)
    obtain ⟨a, s₂, s₂', hs₂, hs₂', h₂, ha, hk₂⟩ :=
      h₁.operand halike (irRegisters_read List.mem_cons_self)
    simp only [allocateInstruction, hs₁, hs₁', hs₂, hs₂']
    exact h₂.add _ rfl (known_two ha (hd.mono hk₂))
  | store w src address =>
    obtain ⟨x, s₁, s₁', hs₁, hs₁', h₁, hx, -⟩ :=
      hstart.operand halike (irRegisters_read (q := src) (by simp [irInstruction.reads]))
    obtain ⟨a, s₂, s₂', hs₂, hs₂', h₂, ha, hk₂⟩ :=
      h₁.operand halike (irRegisters_read (q := address) (by simp [irInstruction.reads]))
    simp only [allocateInstruction, hs₁, hs₁', hs₂, hs₂']
    exact h₂.add _ rfl (known_two ha (hx.mono hk₂))
  | binop type w dst op1 op2 =>
    obtain ⟨d, s₁, s₁', hs₁, hs₁', h₁, hd, -⟩ := hstart.operand halike (irRegisters_dst rfl)
    obtain ⟨a, s₂, s₂', hs₂, hs₂', h₂, ha, hk₂⟩ :=
      h₁.operand halike (irRegisters_read (q := op1) (by simp [irInstruction.reads]))
    obtain ⟨b, s₃, s₃', hs₃, hs₃', h₃, hb, hk₃⟩ :=
      h₂.operand halike (irRegisters_read (q := op2) (by simp [irInstruction.reads]))
    simp only [allocateInstruction, hs₁, hs₁', hs₂, hs₂', hs₃, hs₃']
    have hd := hd.mono (hk₂.trans hk₃)
    split_ifs with htype
    · exact h₃.asr halike w hd (ha.mono hk₃) hb
    · exact h₃.add _ rfl (known_three (ha.mono hk₃) hb hd)
  | ite w dst pred trueOp falseOp =>
    obtain ⟨d, s₁, s₁', hs₁, hs₁', h₁, hd, -⟩ := hstart.operand halike (irRegisters_dst rfl)
    obtain ⟨q, s₂, s₂', hs₂, hs₂', h₂, hq, hk₂⟩ :=
      h₁.operand halike (irRegisters_read (q := pred) (by simp [irInstruction.reads]))
    obtain ⟨a, s₃, s₃', hs₃, hs₃', h₃, ha, hk₃⟩ :=
      h₂.operand halike (irRegisters_read (q := trueOp) (by simp [irInstruction.reads]))
    obtain ⟨b, s₄, s₄', hs₄, hs₄', h₄, hb, hk₄⟩ :=
      h₃.operand halike (irRegisters_read (q := falseOp) (by simp [irInstruction.reads]))
    simp only [allocateInstruction, hs₁, hs₁', hs₂, hs₂', hs₃, hs₃', hs₄, hs₄']
    exact h₄.add _ rfl (known_cons (hq.mono (hk₃.trans hk₄))
      (known_three (ha.mono hk₄) hb (hd.mono (hk₂.trans (hk₃.trans hk₄)))))
  | cast type dst op =>
    obtain ⟨d, s₁, s₁', hs₁, hs₁', h₁, hd, -⟩ := hstart.operand halike (irRegisters_dst rfl)
    obtain ⟨a, s₂, s₂', hs₂, hs₂', h₂, ha, hk₂⟩ :=
      h₁.operand halike (irRegisters_read (q := op) (by simp [irInstruction.reads]))
    simp only [allocateInstruction, hs₁, hs₁', hs₂, hs₂']
    exact h₂.add _ rfl (known_two ha (hd.mono hk₂))
  | exit value pred =>
    obtain ⟨v, s₁, s₁', hs₁, hs₁', h₁, hv, -⟩ :=
      hstart.operand halike (irRegisters_read (q := value) (by simp [irInstruction.reads]))
    obtain ⟨q, s₂, s₂', hs₂, hs₂', h₂, hq, hk₂⟩ := h₁.optional halike (r := pred)
      fun q hq => irRegisters_read (by simp [irInstruction.reads, hq])
    simp only [allocateInstruction, hs₁, hs₁', hs₂, hs₂']
    exact h₂.exit halike (hv.mono hk₂) hq
  | call address param result =>
    have hparam : ∀ n q, param n = some q → irRegisters (.call address param result) q.index :=
      fun n q hq => irRegisters_read (List.mem_cons_of_mem _
        (List.reduceOption_mem_iff.mpr (List.mem_ofFn.mpr ⟨n, hq⟩)))
    obtain ⟨p₀, s₀, s₀', hs₀, hs₀', h₀, hp₀, -⟩ := hstart.optional halike (hparam 0)
    obtain ⟨p₁, s₁, s₁', hs₁, hs₁', h₁, hp₁, hk₁⟩ := h₀.optional halike (hparam 1)
    obtain ⟨p₂, s₂, s₂', hs₂, hs₂', h₂, hp₂, hk₂⟩ := h₁.optional halike (hparam 2)
    obtain ⟨p₃, s₃, s₃', hs₃, hs₃', h₃, hp₃, hk₃⟩ := h₂.optional halike (hparam 3)
    obtain ⟨d, s₄, s₄', hs₄, hs₄', h₄, hd, hk₄⟩ := h₃.optional halike (r := result)
      fun q hq => irRegisters_dst hq
    obtain ⟨a, s₅, s₅', hs₅, hs₅', h₅, ha, hk₅⟩ :=
      h₄.operand halike (irRegisters_read (q := address) List.mem_cons_self)
    simp only [allocateInstruction, hs₀, hs₀', hs₁, hs₁', hs₂, hs₂', hs₃, hs₃', hs₄, hs₄', hs₅, hs₅']
    have hk₃ := hk₃.trans (hk₄.trans hk₅)
    have hk₂ := hk₂.trans hk₃
    have hk₁ := hk₁.trans hk₂
    apply h₅.add _ rfl
    intro v hv
    simp only [x86Instruction.regs, x86Instruction.reads, x86Instruction.dst, List.cons_append,
      List.mem_cons, List.mem_append, mem_four, Option.mem_toList] at hv
    obtain rfl | (hv | hv | hv | hv) | hv := hv
    · exact ha
    · exact (hp₀ v hv).mono hk₁
    · exact (hp₁ v hv).mono hk₂
    · exact (hp₂ v hv).mono hk₃
    · exact (hp₃ v hv).mono (hk₄.trans hk₅)
    · exact (hd v hv).mono hk₅
  | read_context w dst offset =>
    simp only [allocateInstruction, ne_eq, hlast w dst offset rfl]
    split_ifs with hnone
    · exact hstart
    · obtain ⟨d, s₁, s₁', hs₁, hs₁', h₁, hd, -⟩ := hstart.operand halike (irRegisters_dst rfl)
      simp only [hs₁, hs₁']
      exact h₁.add _ rfl (known_cons hd (by rintro v ⟨⟩))
  | write_context w src offset =>
    obtain ⟨x, s₁, s₁', hs₁, hs₁', h₁, hx, -⟩ :=
      hstart.operand halike (irRegisters_read (q := src) (by simp [irInstruction.reads]))
    simp only [allocateInstruction, hs₁, hs₁']
    exact h₁.add _ rfl (known_cons hx (by rintro v ⟨⟩))
  | marker value => exact absurd rfl (hmarker value)

end rounds

end Umeq.Jitter.X86_64
