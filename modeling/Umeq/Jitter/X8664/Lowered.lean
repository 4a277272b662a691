import Umeq.Jitter.X8664.Lowering

/-! # The lowered program

    What `allocateInstructions` gives for a program of the builders. Each instruction
    is lowered to one over virtual registers, but for a narrow arithmetic shift, which
    takes four, and a context read whose result nobody reads, which is dropped.
-/

namespace Umeq.Jitter.X86_64

open Words

/-! ## Rounds -/

/-- What a round of `allocateInstructions` can do. -/
inductive Round (lastRead : Nat → Option Nat) (i : inter) : irInstruction → inter → Prop where
  | one (insn p f) : (∀ w d op1 op2, insn = .binop .ASR w d op1 op2 → w = .w64) →
      Round lastRead i insn
      { (i.define insn.dst).add (lower (i.define insn.dst).reg p insn) with isConstant := f }
  | dropped (w d offset) : lastRead d.index = none → Round lastRead i (.read_context w d offset) i
  | asr (w d op1 op2) : sign_shift w ≠ 0 → Round lastRead i (.binop .ASR w d op1 op2)
      (add_asr (i.define (some d)) w ((i.define (some d)).reg d) ((i.define (some d)).reg op1)
        ((i.define (some d)).reg op2))

theorem round (lastRead : Nat → Option Nat) {i : inter} {insn : irInstruction} (h : Ready i insn) :
    Round lastRead i insn (allocateInstruction lastRead i insn) := by
  by_cases hasr : ∀ w dst op1 op2, insn = .binop .ASR w dst op1 op2 → w = .w64
  · by_cases hdrop : ∀ w dst offset, insn = .read_context w dst offset → lastRead dst.index ≠ none
    · obtain ⟨p, f, hone⟩ := allocateInstruction_one h hasr hdrop
      rw [hone]
      exact .one insn p f hasr
    · simp only [not_forall, not_not] at hdrop
      obtain ⟨w, d, offset, rfl, hnone⟩ := hdrop
      have hsame : allocateInstruction lastRead i (.read_context w d offset) = i :=
        if_neg (not_not.mpr hnone)
      rw [hsame]
      exact .dropped w d offset hnone
  · simp only [not_forall] at hasr
    obtain ⟨w, d, op1, op2, rfl, hw⟩ := hasr
    have hknown := fun r hr => (h.known (r := r) hr).1
    have hstep : allocateInstruction lastRead i (.binop .ASR w d op1 op2) =
        add_asr (i.define (some d)) w ((i.define (some d)).reg d) ((i.define (some d)).reg op1)
          ((i.define (some d)).reg op2) := by
      have hk1 := allocateRegister_known (hknown op1 (by simp [irInstruction.reads]))
      have hk2 := allocateRegister_known (hknown op2 (by simp [irInstruction.reads]))
      simp only [irInstruction.dst] at hk1 hk2
      simp only [allocateInstruction, allocateRegister_define i d, hk1, hk2, if_true]
    rw [hstep]
    refine .asr w d op1 op2 ?_
    cases w with
    | w64 => exact absurd rfl hw
    | w8 | w16 | w32 => decide

/-- The code that stands for an instruction. `B` gives the registers of the
    representation their virtual registers; `t` and the two after it are temporaries. -/
inductive Stands (lastRead : Nat → Option Nat) (B : Nat → Option Nat) :
    irInstruction → List x86Instruction → Prop where
  | one (b : irRegister → Nat) (insn p) :
      (∀ w d op1 op2, insn = .binop .ASR w d op1 op2 → w = .w64) →
      (∀ r ∈ insn.reads, B r.index = some (b r)) →
      (∀ d, insn.dst = some d → B d.index = some (b d)) → Stands lastRead B insn [lower b p insn]
  | dropped (w d offset) : lastRead d.index = none → B d.index = none →
      Stands lastRead B (.read_context w d offset) []
  | asr (b : irRegister → Nat) (w d op1 op2 t) : sign_shift w ≠ 0 → B op1.index = some (b op1) →
      B op2.index = some (b op2) → B d.index = some (b d) →
      Stands lastRead B (.binop .ASR w d op1 op2)
        [.mov_const t (BitVec.ofNat 64 (sign_shift w)), .binop .w64 .SHL (t + 1) (b op1) t,
          .binop .w64 .ASR (t + 2) (t + 1) t, .binop w .ASR (b d) (t + 2) (b op2)]

theorem Stands.congr {lastRead B B' : Nat → Option Nat} {insn : irInstruction}
    {piece : List x86Instruction} (h : Stands lastRead B insn piece)
    (hreads : ∀ r ∈ insn.reads, B' r.index = B r.index)
    (hdst : ∀ d, insn.dst = some d → B' d.index = B d.index) : Stands lastRead B' insn piece := by
  cases h with
  | one b _ p hasr hr hd =>
    refine .one b insn p hasr ?_ ?_
    · exact fun r hmem => (hreads r hmem).trans (hr r hmem)
    · exact fun d hmem => (hdst d hmem).trans (hd d hmem)
  | dropped w d offset hnone hd => exact .dropped w d offset hnone ((hdst d rfl).trans hd)
  | asr b w d op1 op2 t hw h₁ h₂ hd =>
    refine .asr b w d op1 op2 t hw ?_ ?_ ((hdst d rfl).trans hd)
    · exact (hreads op1 (by simp [irInstruction.reads])).trans h₁
    · exact (hreads op2 (by simp [irInstruction.reads])).trans h₂

/-- The code that stands for a program. -/
def Lowers (lastRead B : Nat → Option Nat) : List irInstruction → List x86Instruction → Prop
  | [], xs => xs = []
  | insn :: insns, xs => ∃ piece rest, xs = piece ++ rest ∧ Stands lastRead B insn piece ∧
      Lowers lastRead B insns rest

/-! ## What is lowered so far -/

/-- What holds when the instructions that define `env` have been lowered: each register
    of `env` that is read somewhere is defined, with its width. -/
structure Tracks (lastRead : Nat → Option Nat) (env : List irRegister) (W : Nat → width) (i : inter) :
    Prop extends Typed W i where
  numbered : ∀ r ∈ env, r.index < env.length
  defined : ∀ r ∈ env, lastRead r.index ≠ none → ∃ v ∈ dsts i.insns, i.backend r.index = some v
  bounded : ∀ n v, i.backend n = some v → n < env.length ∧ v < i.regIndex
  widths : ∀ r ∈ env, ∀ v, i.backend r.index = some v → W v = r.type
  temps : ∀ v, (∀ n, i.backend n ≠ some v) → W v = .w64

/-- The widths with that of the next register. -/
def with_width (W : Nat → width) (i : inter) : Option irRegister → Nat → width
  | some d => Function.update W i.regIndex d.type
  | none => W

section program

variable {lastRead : Nat → Option Nat} {env : List irRegister} {W : Nat → width} {i i' : inter}
  {insn : irInstruction} {n : Nat} {ds : List Nat}

theorem tracks_reset (lastRead : Nat → Option Nat) : Tracks lastRead [] (fun _ => .w64) reset := by
  refine ⟨⟨lowered_reset, ?_⟩, ?_, ?_, ?_, ?_, fun _ _ => rfl⟩ <;> simp [reset]

theorem Tracks.backend_none (h : Tracks lastRead env W i) {d : irRegister} (hd : d.index = env.length) :
    i.backend d.index = none := by
  rw [Option.eq_none_iff_forall_ne_some]
  intro v hv
  have := (h.bounded _ _ hv).1
  omega

theorem Tracks.ready (h : Tracks lastRead env W i) (hreads : ∀ r ∈ insn.reads, r ∈ env ∧ lastRead r.index ≠ none)
    (hdst : ∀ d, insn.dst = some d → d.index = env.length) : Ready i insn := by
  refine ⟨?_, ?_⟩
  · intro r hr
    obtain ⟨hmem, hread⟩ := hreads r hr
    obtain ⟨v, -, hv⟩ := h.defined r hmem hread
    simp [hv]
  · intro d hd
    exact h.backend_none (hdst d hd)

/-- The registers that an instruction reads. -/
theorem Tracks.operand (h : Tracks lastRead env W i)
    (hreads : ∀ r ∈ insn.reads, r ∈ env ∧ lastRead r.index ≠ none)
    (hdst : ∀ d, insn.dst = some d → d.index = env.length) (r : irRegister) (hr : r ∈ insn.reads) :
    (i.define insn.dst).reg r ∈ dsts i.insns ∧
      with_width W i insn.dst ((i.define insn.dst).reg r) = r.type := by
  obtain ⟨hmem, hread⟩ := hreads r hr
  obtain ⟨v, hv, hback⟩ := h.defined r hmem hread
  have hreg : (i.define insn.dst).reg r = v := by
    rw [((h.ready hreads hdst).known hr).2]
    simp [inter.reg, hback]
  rw [hreg]
  refine ⟨hv, ?_⟩
  cases insn.dst with
  | none => exact h.widths r hmem v hback
  | some d =>
    rw [with_width, Function.update_of_ne (Nat.ne_of_lt (h.lt v hv))]
    exact h.widths r hmem v hback

/-- The register that an instruction writes. -/
theorem Tracks.result (h : Tracks lastRead env W i) {d : irRegister} (hd : d.index = env.length) :
    Typed (with_width W i (some d)) (i.define (some d)) ∧
      (i.define (some d)).insns = i.insns ∧ (i.define (some d)).regIndex = i.regIndex + 1 ∧
      (i.define (some d)).backend = Function.update i.backend d.index (some i.regIndex) ∧
      (i.define (some d)).reg d = i.regIndex := by
  have hnew := allocateRegister_new (h.backend_none hd)
  have htemp : Typed (with_width W i (some d)) (allocateTemporary i).1 := by
    refine (h.toTyped.congr ?_).temporary
    intro v hv
    exact Function.update_of_ne (Nat.ne_of_lt hv) _ _
  rw [inter.define, hnew]
  refine ⟨⟨⟨htemp.nodup, htemp.lt, htemp.reads, htemp.last, htemp.ends⟩, htemp.typed⟩, rfl, rfl, rfl,
    ?_⟩
  simp [inter.reg]

/-- Once the code of an instruction has been added. -/
theorem Tracks.after {dst : Option irRegister} (h : Tracks lastRead env W i)
    (hdst : ∀ d, dst = some d → d.index = env.length) (htyped : Typed (with_width W i dst) i')
    (hdef : Defines (i.define dst) i' n (ds ++ (dst.map (i.define dst).reg).toList)) :
    Tracks lastRead (env ++ dst.toList) (with_width W i dst) i' := by
  cases dst with
  | none =>
    simp only [Option.toList_none, List.append_nil, Option.map_none] at hdef ⊢
    have hback : i'.backend = i.backend := hdef.backend
    refine ⟨htyped, h.numbered, ?_, ?_, ?_, ?_⟩
    · intro r hr hread
      obtain ⟨v, hv, hv'⟩ := h.defined r hr hread
      exact ⟨v, by rw [hdef.dsts]; exact List.mem_append_left _ hv, by rw [hback, hv']⟩
    · intro m v hv
      rw [hback] at hv
      have hreg : i'.regIndex = i.regIndex + n := hdef.regIndex
      obtain ⟨hm, hlt⟩ := h.bounded m v hv
      exact ⟨hm, by omega⟩
    · rw [hback]
      exact h.widths
    · rw [hback]
      exact h.temps
  | some d =>
    have hd := hdst d rfl
    obtain ⟨-, hinsns, hreg, hback, hnew⟩ := h.result hd
    have hback' : i'.backend = Function.update i.backend d.index (some i.regIndex) :=
      hdef.backend.trans hback
    have hold : ∀ m v, i.backend m = some v → i'.backend m = some v := by
      intro m v hv
      have hne : m ≠ d.index := by
        have := (h.bounded m v hv).1
        omega
      rw [hback', Function.update_of_ne hne, hv]
    have hcases : ∀ m v, i'.backend m = some v →
        (m = d.index ∧ v = i.regIndex) ∨ i.backend m = some v := by
      intro m v hv
      rw [hback'] at hv
      by_cases hm : m = d.index
      · subst hm
        rw [Function.update_self] at hv
        exact .inl ⟨rfl, (Option.some.inj hv).symm⟩
      · rw [Function.update_of_ne hm] at hv
        exact .inr hv
    have hdsts : dsts i'.insns = dsts i.insns ++ ds ++ [i.regIndex] := by
      rw [hdef.dsts, hinsns, Option.map_some, hnew, Option.toList_some, List.append_assoc]
    rw [Option.toList_some]
    refine ⟨htyped, ?_, ?_, ?_, ?_, ?_⟩
    · intro r hr
      rw [List.length_append, List.length_singleton]
      rcases List.mem_append.mp hr with hr | hr
      · have := h.numbered r hr
        omega
      · rw [List.mem_singleton.mp hr]
        omega
    · intro r hr hread
      rcases List.mem_append.mp hr with hr | hr
      · obtain ⟨v, hv, hv'⟩ := h.defined r hr hread
        exact ⟨v, by simp [hdsts, hv], hold _ _ hv'⟩
      · rw [List.mem_singleton.mp hr]
        exact ⟨i.regIndex, by simp [hdsts], by rw [hback', Function.update_self]⟩
    · intro m v hv
      rw [List.length_append, List.length_singleton, hdef.regIndex, hreg]
      rcases hcases m v hv with ⟨rfl, rfl⟩ | hv
      · omega
      · obtain ⟨hm, hlt⟩ := h.bounded m v hv
        omega
    · intro r hr v hv
      rcases List.mem_append.mp hr with hr | hr
      · rcases hcases _ v hv with ⟨hm, -⟩ | hv
        · have := h.numbered r hr
          omega
        · rw [with_width, Function.update_of_ne (Nat.ne_of_lt (h.bounded _ _ hv).2)]
          exact h.widths r hr v hv
      · obtain rfl := List.mem_singleton.mp hr
        rw [hback', Function.update_self] at hv
        obtain rfl := Option.some.inj hv
        rw [with_width, Function.update_self]
    · intro v hv
      have hne : v ≠ i.regIndex := by
        intro he
        refine hv d.index ?_
        rw [hback', Function.update_self, he]
      rw [with_width, Function.update_of_ne hne]
      exact h.temps v fun m hm => hv m (hold m v hm)

/-- The code of an instruction that is lowered to one. -/
theorem Tracks.one (h : Tracks lastRead env W i)
    (hreads : ∀ r ∈ insn.reads, r ∈ env ∧ lastRead r.index ≠ none)
    (hdst : ∀ d, insn.dst = some d → d.index = env.length) (htyped : insn.typed) (p : Bool)
    (f : Nat → Bool) : Tracks lastRead (env ++ insn.dst.toList) (with_width W i insn.dst)
      { (i.define insn.dst).add (lower (i.define insn.dst).reg p insn) with isConstant := f } := by
  have hdef := defines_add (i.define insn.dst) (lower (i.define insn.dst).reg p insn)
  rw [lower_dst] at hdef
  have hadd : Typed (with_width W i insn.dst)
      ((i.define insn.dst).add (lower (i.define insn.dst).reg p insn)) := by
    cases hd : insn.dst with
    | none =>
      have hop := h.operand hreads hdst
      rw [hd] at hop
      refine h.toTyped.add ?_ ?_ (lower_typed p (fun r hr => (hop r hr).2) (by simp [hd]) htyped)
      · intro d hd'
        rw [lower_dst, hd] at hd'
        cases hd'
      · intro v hv
        rw [lower_reads] at hv
        obtain ⟨r, hr, rfl⟩ := List.mem_map.mp hv
        exact (hop r hr).1
    | some d =>
      have hop := h.operand hreads hdst
      rw [hd] at hop
      obtain ⟨hdefine, hinsns, hreg, -, hnew⟩ := h.result (hdst d hd)
      refine hdefine.add ?_ ?_ (lower_typed p (fun r hr => (hop r hr).2) ?_ htyped)
      · intro d' hd'
        rw [lower_dst, hd, Option.map_some, hnew] at hd'
        obtain rfl := Option.some.inj hd'
        rw [hreg, hinsns]
        exact ⟨Nat.lt_succ_self _, fun hmem => Nat.lt_irrefl _ (h.lt _ hmem)⟩
      · intro v hv
        rw [lower_reads] at hv
        obtain ⟨r, hr, rfl⟩ := List.mem_map.mp hv
        rw [hinsns]
        exact (hop r hr).1
      · intro d' hd'
        obtain rfl := Option.some.inj (hd.symm.trans hd')
        rw [hnew, with_width, Function.update_self]
  have hconst : Typed (with_width W i insn.dst) { (i.define insn.dst).add
      (lower (i.define insn.dst).reg p insn) with isConstant := f } :=
    ⟨⟨hadd.nodup, hadd.lt, hadd.reads, hadd.last, hadd.ends⟩, hadd.typed⟩
  exact h.after hdst hconst ⟨hdef.backend, hdef.regIndex, by rw [List.nil_append]; exact hdef.dsts⟩

/-- A context read that is dropped. -/
theorem Tracks.dropped (h : Tracks lastRead env W i) {d : irRegister} (hd : d.index = env.length)
    (hnone : lastRead d.index = none) : Tracks lastRead (env ++ [d]) W i := by
  refine ⟨h.toTyped, ?_, ?_, ?_, ?_, h.temps⟩
  · intro r hr
    rw [List.length_append, List.length_singleton]
    rcases List.mem_append.mp hr with hr | hr
    · exact Nat.lt_succ_of_lt (h.numbered r hr)
    · rw [List.mem_singleton.mp hr, hd]
      exact Nat.lt_succ_self _
  · intro r hr hread
    rcases List.mem_append.mp hr with hr | hr
    · exact h.defined r hr hread
    · rw [List.mem_singleton.mp hr] at hread
      exact absurd hnone hread
  · intro m v hv
    obtain ⟨hm, hlt⟩ := h.bounded m v hv
    rw [List.length_append, List.length_singleton]
    exact ⟨Nat.lt_succ_of_lt hm, hlt⟩
  · intro r hr v hv
    rcases List.mem_append.mp hr with hr | hr
    · exact h.widths r hr v hv
    · rw [List.mem_singleton.mp hr, h.backend_none hd] at hv
      cases hv

/-- One round of `allocateInstructions`. -/
theorem Tracks.step (h : Tracks lastRead env W i)
    (hreads : ∀ r ∈ insn.reads, r ∈ env ∧ lastRead r.index ≠ none)
    (hdst : ∀ d, insn.dst = some d → d.index = env.length) (htyped : insn.typed)
    (hround : Round lastRead i insn i') : ∃ W', Tracks lastRead (env ++ insn.dst.toList) W' i' := by
  cases hround with
  | one _ p f _ => exact ⟨_, h.one hreads hdst htyped p f⟩
  | dropped w d offset hnone => exact ⟨W, h.dropped (hdst d rfl) hnone⟩
  | asr w d op1 op2 hw =>
    obtain ⟨hdefine, hinsns, hreg, hback, hnew⟩ := h.result (hdst d rfl)
    have hop1 := (h.operand hreads hdst op1 (by simp [irInstruction.reads])).1
    have hop2 := (h.operand hreads hdst op2 (by simp [irInstruction.reads])).1
    have hfresh : (i.define (some d)).reg d < (i.define (some d)).regIndex ∧
        (i.define (some d)).reg d ∉ dsts (i.define (some d)).insns := by
      rw [hnew, hreg, hinsns]
      exact ⟨Nat.lt_succ_self _, fun hmem => Nat.lt_irrefl _ (h.lt _ hmem)⟩
    have hwidth : with_width W i (some d) ((i.define (some d)).reg d) = w := by
      rw [hnew, with_width, Function.update_self]
      exact htyped.1
    have htemps : ∀ v, (i.define (some d)).regIndex ≤ v → with_width W i (some d) v = .w64 := by
      intro v hv
      rw [hreg] at hv
      rw [with_width, Function.update_of_ne (by omega)]
      refine h.temps v fun m hm => ?_
      have := (h.bounded m v hm).2
      omega
    obtain ⟨hasr, n, ds, hdef⟩ := hdefine.asr w _ _ _ hfresh (hinsns ▸ hop1) (hinsns ▸ hop2) hwidth
      htemps
    exact ⟨_, h.after hdst hasr hdef⟩

/-- What a round adds, and the registers of the representation that stay as they are. -/
theorem Tracks.stands (h : Tracks lastRead env W i)
    (hreads : ∀ r ∈ insn.reads, r ∈ env ∧ lastRead r.index ≠ none)
    (hdst : ∀ d, insn.dst = some d → d.index = env.length) (hround : Round lastRead i insn i') :
    ∃ piece, i'.insns = i.insns ++ piece ∧ Stands lastRead i'.backend insn piece ∧
      ∀ m < env.length, i'.backend m = i.backend m := by
  have hknown := fun r hr => ((h.ready hreads hdst).known (r := r) hr).1
  have hreg : ∀ r ∈ insn.reads, (i.define insn.dst).backend r.index =
      some ((i.define insn.dst).reg r) := by
    intro r hr
    obtain ⟨v, hv⟩ := Option.isSome_iff_exists.mp (hknown r hr)
    simp [inter.reg, hv]
  cases hround with
  | one _ p f hasr =>
    refine ⟨[lower (i.define insn.dst).reg p insn], ?_, .one _ insn p hasr hreg ?_, ?_⟩
    · cases hd : insn.dst with
      | none => rfl
      | some d =>
        have hinsns := (h.result (hdst d hd)).2.1
        simp only [inter.add, hinsns]
    · intro d hd
      obtain ⟨-, -, -, hback, hnew⟩ := h.result (hdst d hd)
      rw [← hd] at hback hnew
      simp only [inter.add]
      rw [hback, hnew, Function.update_self]
    · intro m hm
      cases hd : insn.dst with
      | none => rfl
      | some d =>
        have hindex := hdst d hd
        obtain ⟨-, -, -, hback, -⟩ := h.result hindex
        simp only [inter.add, hback]
        exact Function.update_of_ne (by omega) _ _
  | dropped w d offset hnone =>
    exact ⟨[], (List.append_nil _).symm, .dropped w d offset hnone (h.backend_none (hdst d rfl)),
      fun _ _ => rfl⟩
  | asr w d op1 op2 hw =>
    have hindex := hdst d rfl
    obtain ⟨-, hinsns, -, hback, hnew⟩ := h.result hindex
    obtain ⟨f₁, f₂, f₃, hasr⟩ := add_asr_narrow hw (i.define (some d)) ((i.define (some d)).reg d)
      ((i.define (some d)).reg op1) ((i.define (some d)).reg op2)
    have hback' : (add_asr (i.define (some d)) w ((i.define (some d)).reg d)
        ((i.define (some d)).reg op1) ((i.define (some d)).reg op2)).backend =
        (i.define (some d)).backend := by
      rw [hasr]
      rfl
    rw [hback']
    refine ⟨_, ?_, .asr (i.define (some d)).reg w d op1 op2 (i.define (some d)).regIndex hw
      (hreg op1 (by simp [irInstruction.reads])) (hreg op2 (by simp [irInstruction.reads])) ?_, ?_⟩
    · rw [hasr]
      simp only [inter.add, inter.add_temporary, allocateTemporary, hinsns, List.append_assoc,
        List.cons_append, List.nil_append]
    · rw [hback, hnew, Function.update_self]
    · intro m hm
      rw [hback]
      exact Function.update_of_ne (by omega) _ _

/-- All the rounds. -/
theorem Tracks.run {insns : List irInstruction} (h : Tracks lastRead env W i) (hssa : Ssa env insns)
    (hread : ∀ insn ∈ insns, ∀ r ∈ insn.reads, lastRead r.index ≠ none)
    (hi' : i' = insns.foldl (allocateInstruction lastRead) i) :
    (∃ W', Tracks lastRead (env ++ results insns) W' i') ∧
      (∃ xs, i'.insns = i.insns ++ xs ∧ Lowers lastRead i'.backend insns xs) ∧
      ∀ m < env.length, i'.backend m = i.backend m := by
  induction insns generalizing env W i with
  | nil =>
    subst hi'
    refine ⟨⟨W, by simpa [results] using h⟩, ⟨[], by simp, rfl⟩, fun _ _ => rfl⟩
  | cons insn insns ih =>
    obtain ⟨htyped, hreads, hdst, hrest⟩ := hssa
    have hreads' := fun r hr => And.intro (hreads r hr) (hread insn (by simp) r hr)
    have hround := round lastRead (h.ready hreads' hdst)
    obtain ⟨W₁, h₁⟩ := h.step hreads' hdst htyped hround
    obtain ⟨piece, hpiece, hstands, hkeep⟩ := h.stands hreads' hdst hround
    obtain ⟨hW, ⟨xs, hxs, hlowers⟩, hkeep'⟩ := ih h₁ hrest
      (fun insn' hmem => hread insn' (List.mem_cons_of_mem _ hmem)) hi'
    rw [List.length_append] at hkeep'
    rw [results_cons, ← List.append_assoc]
    refine ⟨hW, ⟨piece ++ xs, ?_, piece, xs, rfl, ?_, hlowers⟩, ?_⟩
    · rw [hxs, hpiece, List.append_assoc]
    · -- later rounds leave the registers of this instruction
      refine hstands.congr ?_ ?_
      · intro r hr
        have := h.numbered r (hreads r hr)
        exact hkeep' _ (by omega)
      · intro d hd
        have := hdst d hd
        exact hkeep' _ (by simp [hd]; omega)
    · intro m hm
      rw [hkeep' m (by omega), hkeep m hm]

end program

/-- The width of a virtual register of the lowered program: that of the register of the
    representation that it stands for, and 64 bits for a temporary. -/
def virtual_width (j : jitter) (v : Nat) : width :=
  match (results j.insns).find? fun r => (allocateInstructions j).backend r.index = some v with
  | some r => r.type
  | none => .w64

/-- What `allocateInstructions` gives. -/
theorem tracks_allocateInstructions {j : jitter} (h : WellBuilt j) :
    Tracks j.lastReadIndex (results j.insns) (virtual_width j) (allocateInstructions j) := by
  obtain ⟨⟨W, hW⟩, -⟩ := (tracks_reset j.lastReadIndex).run h.ssa h.read
    (show allocateInstructions j = _ from rfl)
  rw [List.nil_append] at hW
  have hsame : virtual_width j = W := by
    funext v
    unfold virtual_width
    split
    next r hr =>
      have hback := List.find?_some hr
      exact (hW.widths r (List.mem_of_find?_eq_some hr) v (by simpa using hback)).symm
    next hnone =>
      refine (hW.temps v ?_).symm
      intro m hm
      have hlt := (hW.bounded m v hm).1
      have hr := List.getElem?_eq_getElem hlt
      have hindex := h.numbered m _ hr
      refine List.find?_eq_none.mp hnone _ (List.getElem_mem hlt) ?_
      simp [hindex, hm]
  rwa [hsame]

theorem lowers_allocateInstructions {j : jitter} (h : WellBuilt j) :
    Lowers j.lastReadIndex (allocateInstructions j).backend j.insns (allocateInstructions j).insns := by
  obtain ⟨-, ⟨xs, hxs, hlowers⟩, -⟩ := (tracks_reset j.lastReadIndex).run h.ssa h.read
    (show allocateInstructions j = _ from rfl)
  rw [show reset.insns = [] from rfl, List.nil_append] at hxs
  rwa [hxs]

end Umeq.Jitter.X86_64
