import Umeq.Jitter.Ir
import Mathlib.Data.List.ReduceOption

/-! # Programs that the builders make

    Each register is the result of one instruction and is read by later ones only,
    and the types of the operands are those that the builders ask for.
-/

namespace Umeq.Jitter

open Words

/-! ## Well-formed programs -/

/-- The types that the builders give and ask for. -/
def irInstruction.typed : irInstruction → Prop
  | .mov w dst _ | .load w dst _ | .read_context w dst _ => dst.type = w
  | .store w src _ => src.type = w
  | .binop type w dst op1 op2 => dst.type = w ∧ op1.type = w ∧ op2.type = type.op2_type w
  | .ite _ dst pred trueOp falseOp =>
    dst.type = trueOp.type ∧ trueOp.type = pred.type ∧ falseOp.type = pred.type
  | .cast type dst _ => dst.type = type.target
  | .exit value _ => value.type = .w64
  | .call _ _ _ | .write_context _ _ _ | .marker _ => True

/-- The registers that a list of instructions writes. -/
def results (insns : List irInstruction) : List irRegister := insns.filterMap irInstruction.dst

/-- Straight-line code whose registers are numbered in the order of their
    definitions; `env` are those of the code before. -/
def Ssa : List irRegister → List irInstruction → Prop
  | _, [] => True
  | env, insn :: insns => insn.typed ∧ (∀ r ∈ insn.reads, r ∈ env) ∧
      (∀ d, insn.dst = some d → d.index = env.length) ∧ Ssa (env ++ insn.dst.toList) insns

theorem results_append (a b : List irInstruction) : results (a ++ b) = results a ++ results b := by
  simp [results]

theorem results_cons (insn : irInstruction) (insns : List irInstruction) :
    results (insn :: insns) = insn.dst.toList ++ results insns := by
  cases h : insn.dst <;> simp [results, h]

theorem ssa_append {env : List irRegister} {a b : List irInstruction} :
    Ssa env (a ++ b) ↔ Ssa env a ∧ Ssa (env ++ results a) b := by
  induction a generalizing env with
  | nil => simp [Ssa, results]
  | cons insn a ih =>
    rw [List.cons_append, Ssa, Ssa, ih, results_cons, List.append_assoc]
    simp only [and_assoc]

/-! ## The builders -/

/-- What the builders keep. -/
structure WellBuilt (j : jitter) : Prop where
  ssa : Ssa [] j.insns
  types : (results j.insns).map irRegister.type = j.types
  numbered : ∀ n (r : irRegister), (results j.insns)[n]? = some r → r.index = n
  read : ∀ insn ∈ j.insns, ∀ r ∈ insn.reads, j.lastReadIndex r.index ≠ none

theorem WellBuilt.has_iff {j : jitter} (h : WellBuilt j) {r : irRegister} :
    j.has r ↔ r ∈ results j.insns := by
  unfold jitter.has
  rw [← h.types, List.getElem?_map, Option.map_eq_some_iff]
  refine ⟨?_, ?_⟩
  · rintro ⟨r', hr', htype⟩
    have hindex := h.numbered _ _ hr'
    obtain ⟨type, index⟩ := r
    obtain ⟨type', index'⟩ := r'
    simp only at htype hindex
    subst htype hindex
    exact List.mem_of_getElem? hr'
  · intro hr
    obtain ⟨n, hn⟩ := List.mem_iff_getElem?.mp hr
    have hindex := h.numbered n r hn
    exact ⟨r, by rw [hindex, hn], rfl⟩

/-- One more instruction; `types'` has the type of its result too. -/
theorem WellBuilt.add {j : jitter} {insn : irInstruction} (h : WellBuilt j) (htyped : insn.typed)
    (hreads : ∀ r ∈ insn.reads, j.has r) (hdst : ∀ d, insn.dst = some d → d.index = j.types.length) :
    WellBuilt (jitter.add { j with types := j.types ++ (insn.dst.map irRegister.type).toList }
      insn) := by
  have hlen : (results j.insns).length = j.types.length := by rw [← h.types, List.length_map]
  have hresults : results (j.insns ++ [insn]) = results j.insns ++ insn.dst.toList := by
    rw [results_append, results_cons]
    simp [results]
  refine ⟨?_, ?_, ?_, ?_⟩
  · refine ssa_append.mpr ⟨h.ssa, htyped, ?_, ?_, trivial⟩
    · exact fun r hr => h.has_iff.mp (hreads r hr)
    · intro d hd
      rw [List.nil_append, hlen, hdst d hd]
  · simp only [jitter.add, hresults, List.map_append, h.types]
    cases insn.dst <;> rfl
  · intro n r hr
    simp only [jitter.add, hresults] at hr
    rw [List.getElem?_append] at hr
    split_ifs at hr with hn
    · exact h.numbered n r hr
    · cases hd : insn.dst with
      | none => simp [hd] at hr
      | some d =>
        rw [hd, Option.toList_some, List.getElem?_singleton] at hr
        split_ifs at hr with hz
        obtain rfl := Option.some.inj hr
        rw [hdst d hd]
        omega
  · intro insn' hmem r hr
    simp only [jitter.add] at hmem ⊢
    rcases List.mem_append.mp hmem with hmem | hmem
    · split_ifs
      · simp
      · exact h.read insn' hmem r hr
    · obtain rfl := List.mem_singleton.mp hmem
      rw [if_pos (List.mem_map_of_mem hr)]
      simp

theorem wellBuilt_reset : WellBuilt resetJitter :=
  ⟨trivial, rfl, fun n r hr => by simp [resetJitter, results] at hr,
    fun insn hmem => by simp [resetJitter] at hmem⟩

theorem WellBuilt.add_none {j : jitter} {insn : irInstruction} (h : WellBuilt j)
    (htyped : insn.typed) (hdst : insn.dst = none) (hreads : ∀ r ∈ insn.reads, j.has r) :
    WellBuilt (j.add insn) := by
  have hadd := h.add htyped hreads (by simp [hdst])
  rw [hdst, Option.map_none, Option.toList_none, List.append_nil] at hadd
  exact hadd

theorem WellBuilt.add_dst {j : jitter} (h : WellBuilt j) (type : width)
    (insn : irRegister → irInstruction) (htyped : (insn ⟨type, j.types.length⟩).typed)
    (hdst : (insn ⟨type, j.types.length⟩).dst = some ⟨type, j.types.length⟩)
    (hreads : ∀ r ∈ (insn ⟨type, j.types.length⟩).reads, j.has r) :
    WellBuilt (j.add_dst type insn).1 := by
  have hadd := h.add htyped hreads (by simp [hdst])
  rw [hdst] at hadd
  exact hadd

theorem mem_params {param : Fin 4 → Option irRegister} {r : irRegister} :
    r ∈ (List.ofFn param).reduceOption ↔ ∃ i, param i = some r := by
  rw [List.reduceOption_mem_iff, List.mem_ofFn]

/-- The registers that a call reads. -/
theorem has_call {j : jitter} {address : irRegister} {param : Fin 4 → Option irRegister}
    (haddress : j.has address) (hparam : ∀ i r, param i = some r → j.has r) :
    ∀ r ∈ address :: (List.ofFn param).reduceOption, j.has r := by
  intro r hr
  rcases List.mem_cons.mp hr with rfl | hr
  · exact haddress
  · obtain ⟨i, hi⟩ := mem_params.mp hr
    exact hparam i r hi

theorem wellBuilt_of_built {j : jitter} (h : Built j) : WellBuilt j := by
  induction h with
  | reset => exact wellBuilt_reset
  | mov_const w value _ ih => exact ih.add_dst w _ rfl rfl (by simp [irInstruction.reads])
  | load w address _ haddress ih =>
    exact ih.add_dst w _ rfl rfl (by simpa [irInstruction.reads] using haddress)
  | store w src address _ hsrc haddress hadd ih =>
    unfold add_store at hadd
    split_ifs at hadd with htype
    obtain rfl := Option.some.inj hadd
    refine ih.add_none htype rfl ?_
    simpa [irInstruction.reads] using ⟨haddress, hsrc⟩
  | binop type w op1 op2 _ hop1 hop2 hadd ih =>
    unfold add_binop at hadd
    split_ifs at hadd with htype
    obtain ⟨rfl, rfl⟩ := Prod.mk.inj (Option.some.inj hadd)
    refine ih.add_dst op1.type (fun dst => .binop type w dst op1 op2) ⟨htype.1, htype⟩ rfl ?_
    simpa [irInstruction.reads] using ⟨hop1, hop2⟩
  | call_void address param _ haddress hparam ih =>
    exact ih.add_none trivial rfl (has_call haddress hparam)
  | call w address param _ haddress hparam ih =>
    exact ih.add_dst w _ trivial rfl (has_call haddress hparam)
  | ite w pred trueOp falseOp _ hpred htrue hfalse hadd ih =>
    unfold add_ite at hadd
    split_ifs at hadd with htype
    obtain ⟨rfl, rfl⟩ := Prod.mk.inj (Option.some.inj hadd)
    refine ih.add_dst trueOp.type (fun dst => .ite w dst pred trueOp falseOp)
      ⟨rfl, htype.1.symm, htype.2.symm⟩ rfl ?_
    simpa [irInstruction.reads] using ⟨hpred, htrue, hfalse⟩
  | cast type op _ hop ih =>
    exact ih.add_dst type.target _ rfl rfl (by simpa [irInstruction.reads] using hop)
  | exit exitValue pred _ hvalue hpred hadd ih =>
    unfold add_exit_cond at hadd
    split_ifs at hadd with htype
    obtain rfl := Option.some.inj hadd
    refine ih.add_none htype rfl ?_
    intro r hr
    rcases List.mem_cons.mp hr with rfl | hr
    · exact hvalue
    · exact hpred r (Option.mem_toList.mp hr)
  | read_context w offset _ ih => exact ih.add_dst w _ rfl rfl (by simp [irInstruction.reads])
  | write_context w src offset _ hsrc ih =>
    exact ih.add_none trivial rfl (by simpa [irInstruction.reads] using hsrc)
  | insn_marker value _ ih => exact ih.add_none trivial rfl (by simp [irInstruction.reads])

end Umeq.Jitter
