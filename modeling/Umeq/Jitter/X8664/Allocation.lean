import Umeq.Jitter.X8664.Lowered

/-! # Register allocation of the x86_64 back end

    The host registers that `allocateRegisters` gives to the virtual registers of a
    sequence of instructions in which each virtual register is written once, before it
    is read.

    * `Allocated`: what the host registers are good for.
    * `allocateRegisters_sound`: they are so, or there were none left.

    The register that an instruction writes is chosen while those it reads are still
    taken, since the code of an instruction writes it before the last read. There is none
    left when eight registers are live before an instruction that writes one
    (`WrittenOnce.none_iff`), also when no more than eight are live at any point
    (`eight_live_not_allocated`).
-/

namespace Umeq.Jitter.X86_64

open Words

/-! ## Instructions and their last reads -/

/-- The instructions with the last reads that `add_*` note. -/
def added (insns : List x86Instruction) : inter := insns.foldl inter.add reset

/-- A register is read from instruction `k` on. -/
def read_later (insns : List x86Instruction) (k v : Nat) : Bool :=
  (insns.drop k).any fun insn => v ∈ insn.reads

/-- The registers live before instruction `k`. -/
def live (insns : List x86Instruction) (k : Nat) : List Nat :=
  (dsts (insns.take k)).filter (read_later insns k)

section reads

variable {i : inter} {insns : List x86Instruction} {k v : Nat}

theorem added_append (a : List x86Instruction) (insn : x86Instruction) :
    added (a ++ [insn]) = (added a).add insn := by
  simp [added]

theorem insns_added (insns : List x86Instruction) : (added insns).insns = insns := by
  induction insns using List.reverseRecOn with
  | nil => rfl
  | append_singleton insns insn ih => rw [added_append, inter.add, ih]

theorem lastReads_added (insns : List x86Instruction) : LastReads (added insns) := by
  induction insns using List.reverseRecOn with
  | nil => exact ⟨by simp [added, reset], by simp [added, reset]⟩
  | append_singleton insns insn ih =>
    rw [added_append]
    exact ih.add insn

theorem LastReads.lt (h : LastReads i) {l : Nat} (hl : i.lastReadIndex v = some l) :
    l < i.insns.length := by
  obtain ⟨insn, hinsn, -⟩ := h.ends v l hl
  exact (List.getElem?_eq_some_iff.mp hinsn).1

/-- The table tells what is read later. -/
theorem LastReads.is_live (h : LastReads i) (k v : Nat) :
    LinearScan.is_live i.lastReadIndex k v = read_later i.insns k v := by
  rw [Bool.eq_iff_iff, LinearScan.is_live_iff, read_later, List.any_eq_true]
  constructor
  · rintro ⟨l, hl, hk⟩
    obtain ⟨insn, hinsn, hv⟩ := h.ends v l hl
    refine ⟨insn, List.mem_of_getElem? (i := l - k) ?_, decide_eq_true hv⟩
    rw [List.getElem?_drop, Nat.add_sub_cancel' hk, hinsn]
  · rintro ⟨insn, hmem, hv⟩
    obtain ⟨m, hm⟩ := List.mem_iff_getElem?.mp hmem
    rw [List.getElem?_drop] at hm
    obtain ⟨l, hl, hk⟩ := h.last _ insn hm v (of_decide_eq_true hv)
    exact ⟨l, hl, by omega⟩

/-- The table of a lowered program is that of its instructions. -/
theorem LastReads.unique {i' : inter} (h : LastReads i) (h' : LastReads i') (he : i.insns = i'.insns) :
    i.lastReadIndex = i'.lastReadIndex := by
  have hle : ∀ {a b : inter}, LastReads a → LastReads b → a.insns = b.insns →
      ∀ v l, a.lastReadIndex v = some l → ∃ m, b.lastReadIndex v = some m ∧ l ≤ m := by
    intro a b ha hb hab v l hl
    obtain ⟨insn, hinsn, hv⟩ := ha.ends v l hl
    exact hb.last l insn (hab ▸ hinsn) v hv
  funext v
  cases hv : i.lastReadIndex v with
  | some l =>
    obtain ⟨m, hm, hlm⟩ := hle h h' he v l hv
    obtain ⟨l', hl', hml⟩ := hle h' h he.symm v m hm
    rw [hv] at hl'
    have := Option.some.inj hl'
    rw [hm, show l = m by omega]
  | none =>
    cases hv' : i'.lastReadIndex v with
    | none => rfl
    | some m =>
      obtain ⟨l, hl, -⟩ := hle h' h he.symm v m hv'
      rw [hv] at hl
      cases hl

end reads

/-- What lowering gives to the allocator is what the instructions alone say. -/
theorem Lowered.allocateRegisters_added {i : inter} (h : Lowered i) :
    allocateRegisters (added i.insns) = allocateRegisters i := by
  have hlast := (lastReads_added i.insns).unique h.lastReads (insns_added i.insns)
  rw [allocateRegisters, allocateRegisters, hlast, insns_added]

/-! ## The host registers -/

/-- The host registers given to the virtual registers of a sequence. -/
structure Allocated (insns : List x86Instruction) (a : LinearScan.places Nat) : Prop where
  lt : ∀ v ∈ dsts insns, a.index v < REG_NUMBER
  /-- Two registers that are live have two host registers. -/
  apart : ∀ k ≤ insns.length, ∀ v ∈ live insns k, ∀ v' ∈ live insns k, a.index v = a.index v' → v = v'
  /-- What an instruction writes is apart from what is read by it or later. -/
  result : ∀ k insn d, insns[k]? = some insn → insn.dst = some d →
    ∀ v ∈ live insns k, a.index d ≠ a.index v
  /-- Before each instruction the host registers taken are those of the live registers. -/
  freed : ∀ k ≤ insns.length, ∃ s,
    LinearScan.scan REG_NUMBER (added insns).lastReadIndex 0 ((insns.take k).map x86Instruction.access)
      ⟨fun _ => true, id⟩ = some s ∧ (∀ v ∈ dsts (insns.take k), s.index v = a.index v) ∧
    ∀ p < REG_NUMBER, s.free p = false ↔ ∃ v ∈ live insns k, a.index v = p

section allocation

variable {insns : List x86Instruction} {a : LinearScan.places Nat} {k v : Nat}

theorem mem_live : v ∈ live insns k ↔
    v ∈ dsts (insns.take k) ∧ LinearScan.is_live (added insns).lastReadIndex k v := by
  rw [live, List.mem_filter, (lastReads_added insns).is_live, insns_added]

theorem WrittenOnce.ssa_added (h : WrittenOnce insns) :
    LinearScan.Ssa (added insns).lastReadIndex 0 [] (insns.map x86Instruction.access) := by
  have hssa := WrittenOnce.ssa (i := added insns) (by rwa [insns_added]) (lastReads_added insns)
  rwa [insns_added] at hssa

/-- The scan up to instruction `k` and the one from there on. -/
theorem WrittenOnce.good_at (h : WrittenOnce insns) (ha : allocateRegisters (added insns) = some a)
    (hk : k ≤ insns.length) : ∃ s,
      LinearScan.scan REG_NUMBER (added insns).lastReadIndex 0
        ((insns.take k).map x86Instruction.access) ⟨fun _ => true, id⟩ = some s ∧
      (∀ v ∈ dsts (insns.take k), s.index v = a.index v) ∧
      LinearScan.Good REG_NUMBER (added insns).lastReadIndex k (dsts (insns.take k)) s := by
  have hsplit : insns.map x86Instruction.access =
      (insns.take k).map x86Instruction.access ++ (insns.drop k).map x86Instruction.access := by
    rw [← List.map_append, List.take_append_drop]
  have hssa := h.ssa_added
  rw [allocateRegisters, insns_added] at ha
  rw [hsplit] at hssa ha
  obtain ⟨s, hfirst, hsecond⟩ := LinearScan.scan_append ha
  obtain ⟨hssa₁, hssa₂⟩ := LinearScan.ssa_append hssa
  have hgood := LinearScan.scan_good hssa₁ (LinearScan.good_start REG_NUMBER _ id) hfirst
  have hsame := LinearScan.scan_index hssa₂ hgood hsecond
  rw [List.nil_append, writes_access] at hsame hgood
  rw [Nat.zero_add, List.length_map, List.length_take, Nat.min_eq_left hk] at hgood
  exact ⟨s, hfirst, fun v hv => (hsame v hv).symm, hgood⟩

/-- The host registers of a scan that succeeds. -/
theorem WrittenOnce.allocated (h : WrittenOnce insns)
    (ha : allocateRegisters (added insns) = some a) : Allocated insns a := by
  have hscan := ha
  rw [allocateRegisters, insns_added] at hscan
  have hassigned := LinearScan.scan_assigned h.ssa_added (LinearScan.good_start REG_NUMBER _ id) hscan
  have hplaced : ∀ k insn, insns[k]? = some insn → LinearScan.Placed REG_NUMBER
      (added insns).lastReadIndex a.index k (dsts (insns.take k)) insn.access := by
    intro k insn hinsn
    have hat := hassigned.at (m := k) (i := insn.access) (by rw [List.getElem?_map, hinsn]; rfl)
    rwa [← List.map_take, writes_access, List.nil_append, Nat.zero_add] at hat
  refine ⟨?_, ?_, ?_, ?_⟩
  · intro v hv
    obtain ⟨insn, hmem, hdst⟩ := List.mem_filterMap.mp hv
    obtain ⟨k, hk⟩ := List.mem_iff_getElem?.mp hmem
    exact (hplaced k insn hk).lt v (Option.mem_toList.mpr hdst)
  · intro k hk v hv v' hv' he
    obtain ⟨s, -, hsame, hgood⟩ := h.good_at ha hk
    obtain ⟨hdef, hlive⟩ := mem_live.mp hv
    obtain ⟨hdef', hlive'⟩ := mem_live.mp hv'
    rw [← hsame v hdef, ← hsame v' hdef'] at he
    exact hgood.apart v hdef v' hdef' hlive hlive' he
  · intro k insn d hinsn hdst v hv
    obtain ⟨hdef, hlive⟩ := mem_live.mp hv
    exact (hplaced k insn hinsn).live d (Option.mem_toList.mpr hdst) v hdef hlive
  · intro k hk
    obtain ⟨s, hfirst, hsame, hgood⟩ := h.good_at ha hk
    refine ⟨s, hfirst, hsame, ?_⟩
    intro p hp
    constructor
    · intro hused
      obtain ⟨v, hdef, hlive, hindex⟩ := hgood.taken p hp hused
      exact ⟨v, mem_live.mpr ⟨hdef, hlive⟩, (hsame v hdef).symm.trans hindex⟩
    · rintro ⟨v, hv, rfl⟩
      obtain ⟨hdef, hlive⟩ := mem_live.mp hv
      rw [← hsame v hdef]
      exact (hgood.placed v hdef hlive).2

/-- With host registers for all, fewer than eight registers are live before an instruction
    that writes one. -/
theorem Allocated.live_lt (h : Allocated insns a) (hnodup : (dsts insns).Nodup)
    {insn : x86Instruction} {d : Nat} (hinsn : insns[k]? = some insn) (hdst : insn.dst = some d) :
    (live insns k).length < REG_NUMBER := by
  have hk : k < insns.length := (List.getElem?_eq_some_iff.mp hinsn).1
  have hd : d ∈ dsts insns :=
    List.mem_filterMap.mpr ⟨insn, List.mem_of_getElem? hinsn, hdst⟩
  have hsub : dsts (insns.take k) ⊆ dsts insns := by
    intro v hv
    rw [← List.take_append_drop k insns, dsts_append]
    exact List.mem_append_left _ hv
  have hlive : (live insns k).Nodup := by
    refine List.Nodup.filter _ ?_
    rw [← List.take_append_drop k insns, dsts_append] at hnodup
    exact hnodup.of_append_left
  have hmap : (a.index d :: (live insns k).map a.index).Nodup := by
    refine List.nodup_cons.mpr ⟨?_, ?_⟩
    · intro hmem
      obtain ⟨v, hv, he⟩ := List.mem_map.mp hmem
      exact h.result k insn d hinsn hdst v hv he.symm
    · exact hlive.map_on fun v hv v' hv' => h.apart k hk.le v hv v' hv'
  have hrange : a.index d :: (live insns k).map a.index ⊆ List.range REG_NUMBER := by
    intro p hp
    rw [List.mem_range]
    rcases List.mem_cons.mp hp with rfl | hp
    · exact h.lt d hd
    · obtain ⟨v, hv, rfl⟩ := List.mem_map.mp hp
      exact h.lt v (hsub (mem_live.mp hv).1)
  have hlen := (hmap.subperm hrange).length_le
  rw [List.length_cons, List.length_map, List.length_range] at hlen
  omega

/-- There is no host register left when eight registers are live before an instruction that
    writes one. -/
theorem WrittenOnce.none_iff (h : WrittenOnce insns) : allocateRegisters (added insns) = none ↔
    ∃ k insn d, insns[k]? = some insn ∧ insn.dst = some d ∧ REG_NUMBER ≤ (live insns k).length := by
  constructor
  · intro hnone
    by_contra hroom
    have hfits : LinearScan.Fits REG_NUMBER (added insns).lastReadIndex 0 []
        (insns.map x86Instruction.access) := by
      refine LinearScan.fits_of_forall ?_
      intro m i hi hwrites
      rw [List.getElem?_map] at hi
      obtain ⟨insn, hinsn, rfl⟩ := Option.map_eq_some_iff.mp hi
      rw [List.nil_append, ← List.map_take, writes_access, Nat.zero_add,
        show LinearScan.is_live (added insns).lastReadIndex m = read_later insns m by
          funext v
          rw [(lastReads_added insns).is_live, insns_added]]
      show (live insns m).length + insn.dst.toList.length ≤ REG_NUMBER
      cases hdst : insn.dst with
      | none => exact absurd (by simp [x86Instruction.access, hdst]) hwrites
      | some d =>
        have hlt : ¬ REG_NUMBER ≤ (live insns m).length :=
          fun hle => hroom ⟨m, insn, d, hinsn, hdst, hle⟩
        simp only [Option.toList_some, List.length_singleton]
        omega
    obtain ⟨a, ha⟩ := LinearScan.scan_isSome h.ssa_added hfits (LinearScan.good_start REG_NUMBER _ id)
    rw [allocateRegisters, insns_added, ha] at hnone
    cases hnone
  · rintro ⟨k, insn, d, hinsn, hdst, hle⟩
    cases ha : allocateRegisters (added insns) with
    | none => rfl
    | some a =>
      have := (h.allocated ha).live_lt h.nodup hinsn hdst
      omega

/-- The host registers that a sequence gets are right, and it gets them unless an
    instruction writes a register while eight others are live. -/
theorem allocateRegisters_sound (h : WrittenOnce insns) :
    (∀ a, allocateRegisters (added insns) = some a → Allocated insns a) ∧
      (allocateRegisters (added insns) = none ↔ ∃ k insn d, insns[k]? = some insn ∧
        insn.dst = some d ∧ d ∉ live insns k ∧ REG_NUMBER < (d :: live insns k).length) := by
  refine ⟨fun a ha => h.allocated ha, ?_⟩
  rw [h.none_iff]
  constructor
  · rintro ⟨k, insn, d, hinsn, hdst, hle⟩
    exact ⟨k, insn, d, hinsn, hdst, fun hmem => h.fresh hinsn hdst (mem_live.mp hmem).1,
      Nat.lt_succ_of_le hle⟩
  · rintro ⟨k, insn, d, hinsn, hdst, -, hlt⟩
    exact ⟨k, insn, d, hinsn, hdst, Nat.le_of_lt_succ hlt⟩

end allocation

/-! ### Eight live registers -/

/-- Eight constants, of which the first two are added and the others written. -/
def added_last : jitter :=
  let j := (List.range 8).foldl
    (fun j i => (Jitter.add_mov_const .w64 (BitVec.ofNat 64 i) j).1) resetJitter
  let (j, sum) := (add_binop .ADD .w64 ⟨.w64, 0⟩ ⟨.w64, 1⟩ j).getD (j, ⟨.w64, 0⟩)
  let j := [2, 3, 4, 5, 6, 7].foldl (fun j i => add_write_context .w64 ⟨.w64, i⟩ 0 j) j
  (add_exit_cond sum none j).getD j

/-- Eight constants that are written, and one that is not read. -/
def never_read : jitter :=
  let j := (List.range 9).foldl
    (fun j i => (Jitter.add_mov_const .w64 (BitVec.ofNat 64 i) j).1) resetJitter
  let j := [1, 2, 3, 4, 5, 6, 7].foldl (fun j i => add_write_context .w64 ⟨.w64, i⟩ 0 j) j
  (add_exit_cond ⟨.w64, 0⟩ none j).getD j

theorem built_consts : Built ((List.range 8).foldl
    (fun j i => (Jitter.add_mov_const .w64 (BitVec.ofNat 64 i) j).1) resetJitter) :=
  .mov_const .w64 7 (.mov_const .w64 6 (.mov_const .w64 5 (.mov_const .w64 4 (.mov_const .w64 3
    (.mov_const .w64 2 (.mov_const .w64 1 (.mov_const .w64 0 .reset)))))))

theorem built_added_last : Built added_last := by
  have hsum : Built _ := .binop .ADD .w64 ⟨.w64, 0⟩ ⟨.w64, 1⟩ built_consts rfl rfl rfl
  have hwrites : Built _ := .write_context .w64 ⟨.w64, 7⟩ 0 (.write_context .w64 ⟨.w64, 6⟩ 0
    (.write_context .w64 ⟨.w64, 5⟩ 0 (.write_context .w64 ⟨.w64, 4⟩ 0 (.write_context .w64 ⟨.w64, 3⟩ 0
      (.write_context .w64 ⟨.w64, 2⟩ 0 hsum rfl) rfl) rfl) rfl) rfl) rfl
  refine .exit ⟨.w64, 8⟩ none hwrites rfl ?_ rfl
  rintro r ⟨⟩

theorem built_never_read : Built never_read := by
  have hconsts : Built _ := .mov_const .w64 8 built_consts
  have hwrites : Built _ := .write_context .w64 ⟨.w64, 7⟩ 0 (.write_context .w64 ⟨.w64, 6⟩ 0
    (.write_context .w64 ⟨.w64, 5⟩ 0 (.write_context .w64 ⟨.w64, 4⟩ 0 (.write_context .w64 ⟨.w64, 3⟩ 0
      (.write_context .w64 ⟨.w64, 2⟩ 0 (.write_context .w64 ⟨.w64, 1⟩ 0 hconsts rfl) rfl) rfl) rfl)
        rfl) rfl) rfl
  refine .exit ⟨.w64, 0⟩ none hwrites rfl ?_ rfl
  rintro r ⟨⟩

/-- No more than eight registers are live at any point, but there is an instruction for which
    no host register is left. -/
structure NotAllocated (j : jitter) : Prop where
  built : Built j
  once : WrittenOnce (allocateInstructions j).insns
  few_live : ∀ k ≤ (allocateInstructions j).insns.length,
    (live (allocateInstructions j).insns k).length ≤ REG_NUMBER
  none_added : allocateRegisters (added (allocateInstructions j).insns) = none
  none_left : allocateRegisters (allocateInstructions j) = none

theorem notAllocated_of_built {j : jitter} (hbuilt : Built j)
    (hlive : ∀ k ≤ (allocateInstructions j).insns.length,
      (live (allocateInstructions j).insns k).length ≤ REG_NUMBER)
    (hnone : allocateRegisters (allocateInstructions j) = none) : NotAllocated j := by
  have hlowered := (tracks_allocateInstructions (wellBuilt_of_built hbuilt)).toLowered
  exact ⟨hbuilt, hlowered.writtenOnce, hlive, hlowered.allocateRegisters_added.trans hnone, hnone⟩

/-- The sum can not have the register of an operand, and a result that is never read needs a
    register for a moment. -/
theorem eight_live_not_allocated : NotAllocated added_last ∧ NotAllocated never_read :=
  ⟨notAllocated_of_built built_added_last (by decide) rfl,
    notAllocated_of_built built_never_read (by decide) rfl⟩

/-- A sum of two constants. -/
def sum_insns : List x86Instruction :=
  [.mov_const 0 1, .mov_const 1 2, .binop .w64 .ADD 2 0 1, .exit 2 none false]

theorem writtenOnce_sum_insns : WrittenOnce sum_insns := by
  refine ⟨by decide, ?_⟩
  intro k insn hinsn
  match k, hinsn with
  | 0, hinsn | 1, hinsn | 2, hinsn | 3, hinsn =>
    obtain rfl := Option.some.inj hinsn
    decide

theorem sum_insns_allocated : WrittenOnce sum_insns ∧
    ∃ a, allocateRegisters (added sum_insns) = some a ∧ Allocated sum_insns a :=
  ⟨writtenOnce_sum_insns, _, rfl, (allocateRegisters_sound writtenOnce_sum_insns).1 _ rfl⟩

end Umeq.Jitter.X86_64
