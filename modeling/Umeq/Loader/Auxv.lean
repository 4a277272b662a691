import Mathlib.Data.Nat.ModEq
import Umeq.Loader.Load

/-! # What the loaders tell the program about itself

    The offset of the program headers is in a variable of the file, and the call for the interpreter
    sets it too. The segments after PT_INTERP are then searched for the offset of the
    interpreter's headers.

    * `Describes`: what the information is to be.
    * `table_kept`: a segment with the table is loaded while the offset is still the program's, and
      none after it contains the offset of an interpreter.
-/

namespace Umeq.Loader

/-! ## The headers of a program -/

section headers

variable (F : elf_format) (files : List UInt8 → Option (List UInt8)) (f : List UInt8)

/-- The program headers that can be read. -/
def program_headers (hdr : Elf_Ehdr) : List Elf_Phdr :=
  (List.range hdr.e_phnum).filterMap (F.getSegment f hdr)

/-- The offset that is in force after a header: the one of an interpreter, once it is loaded. -/
def phoff_step (after : List UInt8 → Nat) (init : Nat) (segment : Elf_Phdr) : Nat :=
  if segment.p_type = PT_INTERP then ((dl_copy_dl_name f segment).map after).getD init else init

/-- The offset that is in force after a file has been loaded as an interpreter. -/
def phoff_after : Nat → List UInt8 → Nat
  | 0, _ => 0
  | depth + 1, file =>
    match files file with
    | none => 0
    | some f =>
      let hdr := (F.getEntry f true).1
      (program_headers F f hdr).foldl (phoff_step f (phoff_after depth)) hdr.e_phoff

/-- The last segment that is taken to hold the headers, with the offset that is in force there. -/
def table_segment (after : List UInt8 → Nat) (is_dl is_share_object : Bool) :
    Nat → List Elf_Phdr → Option (Nat × Elf_Phdr)
  | _, [] => none
  | init, segment :: segments =>
    (table_segment after is_dl is_share_object (phoff_step f after init segment) segments).or
      (if segment.p_type = PT_LOAD ∧
          holds_headers F init (relocate F segment is_dl is_share_object) then
        some (init, relocate F segment is_dl is_share_object)
      else none)

/-- The address that it stands for, or the one that was there before. -/
def table_address (before : Nat) : Option (Nat × Elf_Phdr) → Nat
  | none => before
  | some (init, segment) => address_in F segment init

end headers

/-! ## What is to hold -/

section purpose

variable (F : elf_format) (f : List UInt8)

/-- The header of the file, and its entry as a program. -/
def program_header : Elf_Ehdr := (F.getEntry f false).1

/-- The file part of a segment has the offset. -/
def covers (segment : Elf_Phdr) (offset : Nat) : Prop :=
  segment.p_offset ≤ offset ∧ offset < segment.p_offset + segment.p_filesz

instance (segment : Elf_Phdr) (offset : Nat) : Decidable (covers segment offset) :=
  inferInstanceAs (Decidable (_ ∧ _))

/-- The loadable segments that have the table of the program headers. -/
def table_segments : List Elf_Phdr :=
  (program_headers F f (program_header F f)).filter fun segment =>
    segment.p_type = PT_LOAD ∧ covers segment (program_header F f).e_phoff

/-- The addresses at which the table is mapped. -/
def table_addresses : List Nat :=
  (table_segments F f).map fun segment =>
    address_in F (relocate F segment false ((program_header F f).e_type = ET_DYN))
      (program_header F f).e_phoff

/-- The information is that of the file. -/
structure Describes (auxv_info : load_auxv_info) : Prop where
  phdr : table_addresses F f ≠ [] → auxv_info.load_AT_PHDR ∈ table_addresses F f
  phent : auxv_info.load_AT_PHENT = (program_header F f).e_phentsize
  phnum : auxv_info.load_AT_PHNUM = (program_header F f).e_phnum
  entry : auxv_info.load_AT_ENTRY = (F.getEntry f false).2

/-- The offset that is in force after some of the headers: the program's, or the one of the last
    interpreter that they name. -/
def in_force (files : List UInt8 → Option (List UInt8)) (depth : Nat) (pre : List Elf_Phdr) : Nat :=
  pre.foldl (phoff_step f (phoff_after F files depth)) (program_header F f).e_phoff

/-- The segment is loaded, and its memory is as long as if the offset was in it. -/
def reaches (segment : Elf_Phdr) (offset : Nat) : Prop :=
  segment.p_type = PT_LOAD ∧ holds_headers F offset segment

instance (segment : Elf_Phdr) (offset : Nat) : Decidable (reaches F segment offset) :=
  inferInstanceAs (Decidable (_ ∧ _))

/-- If the table is in a segment at all: one that has it comes while the program's offset is in
    force, and the offset that is in force later is in none of the segments there. -/
def table_kept (files : List UInt8 → Option (List UInt8)) (depth : Nat) : Prop :=
  table_segments F f ≠ [] → ∃ pre segment post,
    program_headers F f (program_header F f) = pre ++ segment :: post ∧
    segment ∈ table_segments F f ∧ reaches F segment (program_header F f).e_phoff ∧
    in_force F f files depth pre = (program_header F f).e_phoff ∧
    ∀ between later rest, post = between ++ later :: rest →
      ¬ reaches F later (in_force F f files depth (pre ++ segment :: between))

/-- The loadable segments are no longer in the file than in memory, and lie apart there. -/
structure segments_apart : Prop where
  filesz_le : ∀ segment ∈ table_segments F f, segment.p_filesz ≤ segment.p_memsz
  apart : (program_headers F f (program_header F f)).Pairwise fun a b =>
    a.p_type = PT_LOAD → b.p_type = PT_LOAD →
      ∀ i < a.p_memsz, ∀ j < b.p_memsz, F.add a.p_vaddr i ≠ F.add b.p_vaddr j

end purpose

/-! ## The segment that is found -/

section search

variable {F : elf_format} {f : List UInt8} {after : List UInt8 → Nat} {is_dl is_share_object : Bool}
  {init x : Nat} {segment a b : Elf_Phdr} {segments pre post : List Elf_Phdr}

@[simp] theorem holds_relocate : holds_headers F x (relocate F segment is_dl is_share_object) ↔
    holds_headers F x segment := by
  unfold holds_headers relocate
  split_ifs <;> simp only

@[simp] theorem relocate_offset :
    (relocate F segment is_dl is_share_object).p_offset = segment.p_offset := by
  unfold relocate
  split_ifs <;> simp only

theorem table_segment_none : table_segment F f after is_dl is_share_object init segments = none ↔
    ∀ between later rest, segments = between ++ later :: rest →
      ¬ reaches F later (between.foldl (phoff_step f after) init) := by
  induction segments generalizing init with
  | nil => simp [table_segment]
  | cons segment segments ih =>
    unfold table_segment
    rw [Option.or_eq_none_iff, ih]
    constructor
    · rintro ⟨htail, hhead⟩ between later rest heq
      cases between with
      | nil =>
        obtain ⟨rfl, rfl⟩ := List.cons.inj heq
        simpa [reaches] using hhead
      | cons head between =>
        obtain ⟨rfl, rfl⟩ := List.cons.inj heq
        exact htail between later rest rfl
    · intro h
      refine ⟨fun between later rest heq => h (segment :: between) later rest (by rw [heq]; rfl), ?_⟩
      simpa [reaches] using h [] segment segments rfl

/-- The search goes on after a segment that reaches, and comes back to it. -/
theorem table_segment_of_split (hreach : reaches F segment (pre.foldl (phoff_step f after) init))
    (hpost : ∀ between later rest, post = between ++ later :: rest →
      ¬ reaches F later ((pre ++ segment :: between).foldl (phoff_step f after) init)) :
    table_segment F f after is_dl is_share_object init (pre ++ segment :: post) =
      some (pre.foldl (phoff_step f after) init, relocate F segment is_dl is_share_object) := by
  induction pre generalizing init with
  | nil =>
    have hnone : table_segment F f after is_dl is_share_object (phoff_step f after init segment)
        post = none := table_segment_none.mpr hpost
    simp only [List.nil_append, table_segment, List.foldl_nil]
    rw [hnone, if_pos ⟨hreach.1, holds_relocate.mpr hreach.2⟩]
    rfl
  | cons head pre ih =>
    simp only [List.cons_append, table_segment]
    rw [ih hreach hpost]
    rfl

theorem table_segment_some {found : Nat × Elf_Phdr}
    (h : table_segment F f after is_dl is_share_object init segments = some found) :
    ∃ pre segment post, segments = pre ++ segment :: post ∧
      found = (pre.foldl (phoff_step f after) init, relocate F segment is_dl is_share_object) ∧
      reaches F segment (pre.foldl (phoff_step f after) init) ∧
      ∀ between later rest, post = between ++ later :: rest →
        ¬ reaches F later ((pre ++ segment :: between).foldl (phoff_step f after) init) := by
  induction segments generalizing init with
  | nil => cases h
  | cons segment segments ih =>
    unfold table_segment at h
    rcases Option.or_eq_some_iff.mp h with htail | ⟨hnone, hhead⟩
    · obtain ⟨pre, segment', post, rfl, hfound, hreach, hpost⟩ := ih htail
      exact ⟨segment :: pre, segment', post, rfl, hfound, hreach, hpost⟩
    · split_ifs at hhead with hhere
      obtain rfl := Option.some.inj hhead
      exact ⟨[], segment, segments, rfl, rfl, ⟨hhere.1, holds_relocate.mp hhere.2⟩,
        table_segment_none.mp hnone⟩

/-! ## Addresses -/

theorem address_in_eq (hle : segment.p_offset ≤ x) (hx : x < 2 ^ F.bits) :
    address_in F segment x = F.add segment.p_vaddr (x - segment.p_offset) := by
  unfold address_in elf_format.sub elf_format.add
  have hmod : (x + segment.p_vaddr) % 2 ^ F.bits + (2 ^ F.bits - segment.p_offset) ≡
      x + segment.p_vaddr + (2 ^ F.bits - segment.p_offset) [MOD 2 ^ F.bits] :=
    (Nat.mod_modEq _ _).add_right _
  have hsum : x + segment.p_vaddr + (2 ^ F.bits - segment.p_offset) =
      segment.p_vaddr + (x - segment.p_offset) + 2 ^ F.bits := by omega
  rw [show (x + segment.p_vaddr) % 2 ^ F.bits + 2 ^ F.bits - segment.p_offset =
    (x + segment.p_vaddr) % 2 ^ F.bits + (2 ^ F.bits - segment.p_offset) by omega]
  rw [hsum] at hmod
  exact hmod.trans (Nat.add_modEq_right)

/-- All segments of a file are moved by the same distance. -/
theorem add_relocate {i j : Nat} (h : F.add (relocate F a is_dl is_share_object).p_vaddr i =
    F.add (relocate F b is_dl is_share_object).p_vaddr j) : F.add a.p_vaddr i = F.add b.p_vaddr j := by
  have hmove : ∀ d : Nat, F.add (F.add a.p_vaddr d) i = F.add (F.add b.p_vaddr d) j →
      F.add a.p_vaddr i = F.add b.p_vaddr j := by
    intro d hd
    have hswap : ∀ v k : Nat, F.add (F.add v d) k ≡ v + k + d [MOD 2 ^ F.bits] := by
      intro v k
      have hin : (v + d) % 2 ^ F.bits + k ≡ v + d + k [MOD 2 ^ F.bits] :=
        (Nat.mod_modEq _ _).add_right _
      rw [show v + k + d = v + d + k by omega]
      exact (Nat.mod_modEq _ _).trans hin
    have hsame := (hswap a.p_vaddr i).symm.trans ((congrArg (· % 2 ^ F.bits) hd).trans
      (hswap b.p_vaddr j))
    exact Nat.ModEq.add_right_cancel' d hsame
  unfold relocate at h
  split_ifs at h
  · exact hmove _ h
  · exact hmove _ h
  · exact h

end search

/-! ## One segment -/

section segment

variable {M : Type} {F : elf_format} {ops : space M} {s s' : load_state M} {f : List UInt8}
  {segment : Elf_Phdr} {auxv_info auxv_info' : load_auxv_info} {is_dl is_share_object status : Bool}

/-- What mapping a segment does to the offset and to the information, and leaves of it. -/
structure Adjusts (F : elf_format) (s s' : load_state M) (segment : Elf_Phdr)
    (auxv_info auxv_info' : load_auxv_info) (is_dl is_share_object : Bool) : Prop where
  init : s'.load_AT_PHDR_init = s.load_AT_PHDR_init
  phdr : auxv_info'.load_AT_PHDR =
    (adjust_PHDR F s.load_AT_PHDR_init (relocate F segment is_dl is_share_object) auxv_info).load_AT_PHDR
  phent : auxv_info'.load_AT_PHENT = auxv_info.load_AT_PHENT
  phnum : auxv_info'.load_AT_PHNUM = auxv_info.load_AT_PHNUM
  entry : auxv_info'.load_AT_ENTRY = auxv_info.load_AT_ENTRY

/-- Setting the information changes one field only. -/
theorem adjusts_PHDR (hinit : s'.load_AT_PHDR_init = s.load_AT_PHDR_init) :
    Adjusts F s s' segment auxv_info
      (adjust_PHDR F s.load_AT_PHDR_init (relocate F segment is_dl is_share_object) auxv_info)
      is_dl is_share_object := by
  refine ⟨hinit, rfl, ?_, ?_, ?_⟩ <;> unfold adjust_PHDR <;> split_ifs <;> rfl

theorem note_segment_fields (h : note_segment F segment auxv_info is_dl = some auxv_info') :
    auxv_info'.load_AT_PHDR = auxv_info.load_AT_PHDR ∧
    auxv_info'.load_AT_PHENT = auxv_info.load_AT_PHENT ∧
    auxv_info'.load_AT_PHNUM = auxv_info.load_AT_PHNUM ∧
    auxv_info'.load_AT_ENTRY = auxv_info.load_AT_ENTRY := by
  unfold note_segment at h
  dsimp only at h
  split_ifs at h <;> cases h <;> exact ⟨rfl, rfl, rfl, rfl⟩

theorem mapSegment64_adjusts
    (h : mapSegment64 F ops s f segment auxv_info is_dl is_share_object = some (s', auxv_info', status)) :
    Adjusts F s s' segment auxv_info auxv_info' is_dl is_share_object := by
  unfold mapSegment64 at h
  obtain ⟨⟨m, mapped⟩, -, h⟩ := Option.bind_eq_some_iff.mp h
  dsimp only at h
  split_ifs at h
  · cases h
    exact adjusts_PHDR rfl
  -- the part that is not in the file
  · obtain ⟨⟨m, mapped⟩, -, h⟩ := Option.bind_eq_some_iff.mp h
    dsimp only at h
    split_ifs at h <;> cases h <;> exact adjusts_PHDR rfl
  · cases h
    exact adjusts_PHDR rfl

/-- What is noted for an fdpic file is in other fields. -/
theorem adjusts_noted (hinit : s'.load_AT_PHDR_init = s.load_AT_PHDR_init)
    (h : (note_segment F (relocate F segment is_dl is_share_object)
        (adjust_PHDR F s.load_AT_PHDR_init (relocate F segment is_dl is_share_object) auxv_info)
          is_dl) = some auxv_info') :
    Adjusts F s s' segment auxv_info auxv_info' is_dl is_share_object := by
  obtain ⟨hphdr, hphent, hphnum, hentry⟩ := note_segment_fields h
  have hset : Adjusts F s s' segment auxv_info _ is_dl is_share_object := adjusts_PHDR hinit
  exact ⟨hinit, hphdr, hphent.trans hset.phent, hphnum.trans hset.phnum, hentry.trans hset.entry⟩

theorem mapSegment32_adjusts
    (h : mapSegment32 F ops s f segment auxv_info is_dl is_share_object = some (s', auxv_info', status)) :
    Adjusts F s s' segment auxv_info auxv_info' is_dl is_share_object := by
  unfold mapSegment32 at h
  obtain ⟨⟨m, mapped⟩, -, h⟩ := Option.bind_eq_some_iff.mp h
  dsimp only at h
  split_ifs at h
  · obtain ⟨auxv, hnote, h⟩ := Option.map_eq_some_iff.mp h
    cases h
    exact adjusts_noted rfl hnote
  -- the part that is not in the file
  · obtain ⟨⟨m, mapped⟩, -, h⟩ := Option.bind_eq_some_iff.mp h
    dsimp only at h
    split_ifs at h
    · obtain ⟨auxv, hnote, h⟩ := Option.map_eq_some_iff.mp h
      cases h
      exact adjusts_noted rfl hnote
    · cases h
      exact adjusts_PHDR rfl
  · obtain ⟨auxv, hnote, h⟩ := Option.map_eq_some_iff.mp h
    cases h
    exact adjusts_noted rfl hnote

end segment

/-! ## The loop -/

section loop

variable {M : Type} {L : loader M} {f : List UInt8} {hdr : Elf_Ehdr} {is_dl : Bool}
  {after : List UInt8 → Nat} {load_dl : List UInt8 → load_state M → load_result M}
  {l l' l'' : loop_state M}

/-- The segments of a loader only adjust the information. -/
def OnlyAdjusts (L : loader M) : Prop :=
  ∀ s f segment auxv_info is_dl is_share_object s' auxv_info' status,
    L.mapSegment s f segment auxv_info is_dl is_share_object = some (s', auxv_info', status) →
      Adjusts L.format s s' segment auxv_info auxv_info' is_dl is_share_object

/-- A call for an interpreter that succeeds leaves its offset. -/
def LeavesOffset (load_dl : List UInt8 → load_state M → load_result M) (after : List UInt8 → Nat) :
    Prop :=
  ∀ name s s' auxv_info r, load_dl name s = some (s', auxv_info, r) → r ≠ 0 →
    s'.load_AT_PHDR_init = after name

/-- What some turns of the loop do to the offset and to the information. -/
structure Walked (F : elf_format) (f : List UInt8) (after : List UInt8 → Nat) (is_dl is_so : Bool)
    (segments : List Elf_Phdr) (l l' : loop_state M) : Prop where
  init : l'.state.load_AT_PHDR_init = segments.foldl (phoff_step f after) l.state.load_AT_PHDR_init
  phdr : l'.auxv_info.load_AT_PHDR = table_address F l.auxv_info.load_AT_PHDR
    (table_segment F f after is_dl is_so l.state.load_AT_PHDR_init segments)
  phent : l'.auxv_info.load_AT_PHENT = l.auxv_info.load_AT_PHENT
  phnum : l'.auxv_info.load_AT_PHNUM = l.auxv_info.load_AT_PHNUM
  entry : l'.auxv_info.load_AT_ENTRY = l.auxv_info.load_AT_ENTRY

theorem table_address_or (F : elf_format) (before : Nat) (a b : Option (Nat × Elf_Phdr)) :
    table_address F before (a.or b) = table_address F (table_address F before b) a := by
  cases a <;> rfl

/-- One turn, then the others. -/
theorem Walked.cons {F : elf_format} {is_so : Bool} {segment : Elf_Phdr} {segments : List Elf_Phdr}
    (h : Walked F f after is_dl is_so [segment] l l') (h' : Walked F f after is_dl is_so segments l' l'') :
    Walked F f after is_dl is_so (segment :: segments) l l'' := by
  have hinit : l'.state.load_AT_PHDR_init = phoff_step f after l.state.load_AT_PHDR_init segment := h.init
  have hphdr := h'.phdr
  rw [h.phdr, hinit, ← table_address_or] at hphdr
  refine ⟨?_, hphdr, h'.phent.trans h.phent, h'.phnum.trans h.phnum, h'.entry.trans h.entry⟩
  rw [h'.init, hinit]
  rfl

/-- A turn for a segment that is not loaded and has no interpreter. -/
theorem walked_other {F : elf_format} {is_so : Bool} {segment : Elf_Phdr}
    (hload : segment.p_type ≠ PT_LOAD) (hinterp : segment.p_type ≠ PT_INTERP)
    (hstate : l'.state = l.state) (hphdr : l'.auxv_info.load_AT_PHDR = l.auxv_info.load_AT_PHDR)
    (hphent : l'.auxv_info.load_AT_PHENT = l.auxv_info.load_AT_PHENT)
    (hphnum : l'.auxv_info.load_AT_PHNUM = l.auxv_info.load_AT_PHNUM)
    (hentry : l'.auxv_info.load_AT_ENTRY = l.auxv_info.load_AT_ENTRY) :
    Walked F f after is_dl is_so [segment] l l' := by
  refine ⟨?_, ?_, hphent, hphnum, hentry⟩
  · rw [hstate]
    simp [phoff_step, hinterp]
  · rw [hphdr]
    simp [table_segment, table_address, hload]

/-- A turn that goes on. -/
theorem load_segment_walked (hL : OnlyAdjusts L) (hdl : LeavesOffset load_dl after) {i : Nat}
    (h : load_segment L load_dl f hdr is_dl l i = some (l', true)) :
    ∃ segment, L.format.getSegment f hdr i = some segment ∧
      Walked L.format f after is_dl (hdr.e_type = ET_DYN) [segment] l l' := by
  unfold load_segment at h
  cases hsegment : L.format.getSegment f hdr i with
  | none => simp [hsegment] at h
  | some segment =>
    refine ⟨segment, rfl, ?_⟩
    simp only [hsegment] at h
    split_ifs at h with hload hinterp hstack
    · obtain ⟨⟨s, auxv_info, status⟩, hmap, h⟩ := Option.bind_eq_some_iff.mp h
      cases h
      have hadjusts := hL _ _ _ _ _ _ _ _ _ hmap
      refine ⟨?_, ?_, hadjusts.phent, hadjusts.phnum, hadjusts.entry⟩
      · show s.load_AT_PHDR_init = _
        rw [hadjusts.init]
        simp [phoff_step, hload, PT_LOAD, PT_INTERP]
      · show auxv_info.load_AT_PHDR = _
        rw [hadjusts.phdr]
        unfold adjust_PHDR
        simp only [table_segment, hload, true_and, Option.none_or]
        split_ifs <;> rfl
    · obtain ⟨dl_name, hname, h⟩ := Option.bind_eq_some_iff.mp h
      obtain ⟨⟨s, dl_auxv_info, dl_entry⟩, hcall, h⟩ := Option.bind_eq_some_iff.mp h
      dsimp only at h
      by_cases hzero : dl_entry = 0
      · rw [if_pos hzero] at h
        cases h
      rw [if_neg hzero] at h
      cases h
      refine ⟨?_, ?_, rfl, rfl, rfl⟩
      · show s.load_AT_PHDR_init = _
        rw [hdl _ _ _ _ _ hcall hzero]
        simp [phoff_step, hinterp, hname]
      · show l.auxv_info.load_AT_PHDR = _
        simp [table_segment, table_address, hload]
    · cases h
      exact walked_other hload hinterp rfl rfl rfl rfl rfl
    · cases h
      exact walked_other hload hinterp rfl rfl rfl rfl rfl

/-- The loop, when it comes to its end. -/
theorem load_segments_walked (hL : OnlyAdjusts L) (hdl : LeavesOffset load_dl after) {is : List Nat}
    (h : load_segments L load_dl f hdr is_dl is l = some (l', none)) :
    Walked L.format f after is_dl (hdr.e_type = ET_DYN) (is.filterMap (L.format.getSegment f hdr)) l l' := by
  induction is generalizing l with
  | nil =>
    have hl : l' = l := (congrArg Prod.fst (Option.some.inj h)).symm
    rw [hl]
    exact ⟨rfl, rfl, rfl, rfl, rfl⟩
  | cons i is ih =>
    unfold load_segments at h
    obtain ⟨⟨l1, status⟩, hturn, h⟩ := Option.bind_eq_some_iff.mp h
    cases status with
    | false => cases h
    | true =>
      obtain ⟨segment, hsegment, hwalked⟩ := load_segment_walked hL hdl hturn
      rw [List.filterMap_cons, hsegment]
      exact hwalked.cons (ih h)

end loop

/-! ## Whole files -/

section files

variable {M : Type} {L : loader M} {ops : space M} {files : List UInt8 → Option (List UInt8)}
  {depth : Nat} {file f : List UInt8} {s s' : load_state M} {auxv_info auxv_info' : load_auxv_info}
  {is_dl : Bool} {r : Nat}

/-- Where the loop starts. -/
def loop_start (L : loader M) (hdr : Elf_Ehdr) (entry : Nat) (s : load_state M)
    (auxv_info : load_auxv_info) : loop_state M where
  state := { s with load_AT_PHDR_init := hdr.e_phoff }
  auxv_info := { auxv_info with
    load_AT_PHENT := hdr.e_phentsize
    load_AT_PHNUM := hdr.e_phnum
    load_AT_ENTRY := entry
    fdpic_info := { no_fdpic with is_fdpic := L.elf_is_fdpic hdr } }
  dl_entry := 0

theorem note_dynamic_fields {hdr : Elf_Ehdr} (h : note_dynamic L f hdr is_dl auxv_info = some auxv_info') :
    auxv_info'.load_AT_PHDR = auxv_info.load_AT_PHDR ∧
    auxv_info'.load_AT_PHENT = auxv_info.load_AT_PHENT ∧
    auxv_info'.load_AT_PHNUM = auxv_info.load_AT_PHNUM ∧
    auxv_info'.load_AT_ENTRY = auxv_info.load_AT_ENTRY := by
  unfold note_dynamic at h
  dsimp only at h
  split_ifs at h
  · obtain ⟨addr, -, h⟩ := Option.bind_eq_some_iff.mp h
    cases h
    exact ⟨rfl, rfl, rfl, rfl⟩
  · cases h
    exact ⟨rfl, rfl, rfl, rfl⟩

/-- A call with a result other than 0 has come to the end of its loop. -/
theorem load_internal_loop
    (h : load_internal L ops files (depth + 1) file s auxv_info is_dl = some (s', auxv_info', r))
    (hr : r ≠ 0) :
    ∃ f l, files file = some f ∧
      load_segments L (fun name s => load_internal L ops files depth name s no_auxv_info true) f
        (L.format.getEntry f is_dl).1 is_dl (List.range (L.format.getEntry f is_dl).1.e_phnum)
        (loop_start L (L.format.getEntry f is_dl).1 (L.format.getEntry f is_dl).2 s auxv_info) =
          some (l, none) ∧
      s' = l.state ∧
      note_dynamic L f (L.format.getEntry f is_dl).1 is_dl l.auxv_info = some auxv_info' := by
  unfold load_internal at h
  cases hfile : files file with
  | none =>
    simp only [hfile, Option.some.injEq, Prod.mk.injEq] at h
    exact absurd h.2.2.symm hr
  | some f =>
    simp only [hfile] at h
    by_cases hentry : (L.format.getEntry f is_dl).2 = 0
    · rw [if_pos hentry] at h
      cases h
      exact absurd rfl hr
    rw [if_neg hentry] at h
    obtain ⟨⟨l, stopped⟩, hloop, h⟩ := Option.bind_eq_some_iff.mp h
    cases stopped with
    | none =>
      obtain ⟨auxv, hnote, h⟩ := Option.bind_eq_some_iff.mp h
      cases h
      exact ⟨f, l, rfl, hloop, rfl, hnote⟩
    | some i =>
      obtain ⟨m, -, h⟩ := Option.bind_eq_some_iff.mp h
      cases h
      exact absurd rfl hr

/-- An interpreter that is loaded leaves its offset, or the one of its own interpreter. -/
theorem load_internal_leaves (hL : OnlyAdjusts L) (depth : Nat) :
    LeavesOffset (fun name s => load_internal L ops files depth name s no_auxv_info true)
      (phoff_after L.format files depth) := by
  induction depth with
  | zero =>
    intro name s s' auxv_info r h
    cases h
  | succ depth ih =>
    intro name s s' auxv_info r h hr
    obtain ⟨f, l, hfile, hloop, rfl, -⟩ := load_internal_loop h hr
    have hwalked := load_segments_walked hL ih hloop
    unfold phoff_after
    rw [hwalked.init, hfile]
    rfl

/-- The information that a program is given is its own but for the address of the table. -/
theorem load_internal_describes (hL : OnlyAdjusts L) (hfile : files file = some f)
    (h : load_internal L ops files (depth + 1) file s auxv_info false = some (s', auxv_info', r))
    (hr : r ≠ 0) :
    Describes L.format f auxv_info' ↔ (table_addresses L.format f ≠ [] →
      table_address L.format auxv_info.load_AT_PHDR
        (table_segment L.format f (phoff_after L.format files depth) false
          ((program_header L.format f).e_type = ET_DYN) (program_header L.format f).e_phoff
          (program_headers L.format f (program_header L.format f))) ∈ table_addresses L.format f) := by
  obtain ⟨g, l, hg, hloop, -, hnote⟩ := load_internal_loop h hr
  have hgf : g = f := Option.some.inj (hg.symm.trans hfile)
  subst hgf
  have hwalked := load_segments_walked hL (load_internal_leaves hL depth) hloop
  obtain ⟨hphdr, hphent, hphnum, hentry⟩ := note_dynamic_fields hnote
  rw [hwalked.phdr] at hphdr
  constructor
  · intro hdescribes hne
    have haddress := hdescribes.phdr hne
    rw [hphdr] at haddress
    exact haddress
  · intro hright
    refine ⟨fun hne => ?_, hphent.trans hwalked.phent, hphnum.trans hwalked.phnum,
      hentry.trans hwalked.entry⟩
    rw [hphdr]
    exact hright hne

/-- Enough for every program. -/
theorem describes_of_kept (hL : OnlyAdjusts L) (hfile : files file = some f)
    (h : load_internal L ops files (depth + 1) file s auxv_info false = some (s', auxv_info', r))
    (hr : r ≠ 0) (hkept : table_kept L.format f files depth) : Describes L.format f auxv_info' := by
  rw [load_internal_describes hL hfile h hr]
  intro hne
  have hsegments : table_segments L.format f ≠ [] := fun hnil => hne (by simp [table_addresses, hnil])
  obtain ⟨pre, segment, post, hsplit, htable, hreach, hforce, hpost⟩ := hkept hsegments
  rw [hsplit, table_segment_of_split (by rw [← hforce] at hreach; exact hreach) hpost]
  have hforce : pre.foldl (phoff_step f (phoff_after L.format files depth))
      (program_header L.format f).e_phoff = (program_header L.format f).e_phoff := hforce
  rw [hforce]
  exact List.mem_map_of_mem htable

/-- Needed where the segments lie apart, and the address was not there by chance. -/
theorem kept_of_describes (hL : OnlyAdjusts L) (hfile : files file = some f)
    (h : load_internal L ops files (depth + 1) file s auxv_info false = some (s', auxv_info', r))
    (hr : r ≠ 0) (hphoff : (program_header L.format f).e_phoff < 2 ^ L.format.bits)
    (hapart : segments_apart L.format f)
    (hbefore : auxv_info.load_AT_PHDR ∉ table_addresses L.format f)
    (hdescribes : Describes L.format f auxv_info') : table_kept L.format f files depth := by
  rw [load_internal_describes hL hfile h hr] at hdescribes
  intro hsegments
  have hmem := hdescribes (by simpa [table_addresses] using hsegments)
  cases hfound : table_segment L.format f (phoff_after L.format files depth) false
      ((program_header L.format f).e_type = ET_DYN) (program_header L.format f).e_phoff
      (program_headers L.format f (program_header L.format f)) with
  | none =>
    rw [hfound] at hmem
    exact absurd hmem hbefore
  | some found =>
    obtain ⟨pre, segment, post, hsplit, rfl, hreach, hpost⟩ := table_segment_some hfound
    rw [hfound] at hmem
    obtain ⟨segment', htable, haddress⟩ := List.mem_map.mp hmem
    obtain ⟨hsegment', htype', hlo', hhi'⟩ : segment' ∈ pre ++ segment :: post ∧
        segment'.p_type = PT_LOAD ∧ segment'.p_offset ≤ (program_header L.format f).e_phoff ∧
        (program_header L.format f).e_phoff < segment'.p_offset + segment'.p_filesz := by
      rw [← hsplit]
      obtain ⟨hmem', hhas⟩ := List.mem_filter.mp htable
      exact ⟨hmem', (of_decide_eq_true hhas).1, (of_decide_eq_true hhas).2⟩
    have hsize := hapart.filesz_le segment' htable
    -- the offset in force, and the table, as places in their segments
    have hlo := hreach.2.1
    have hhi := hreach.2.2
    have hlt : pre.foldl (phoff_step f (phoff_after L.format files depth))
        (program_header L.format f).e_phoff < 2 ^ L.format.bits :=
      Nat.lt_trans hhi (Nat.mod_lt _ (Nat.two_pow_pos _))
    have hsum : L.format.add segment.p_offset segment.p_memsz ≤ segment.p_offset + segment.p_memsz :=
      Nat.mod_le _ _
    simp only [table_address] at haddress
    rw [address_in_eq (by rwa [relocate_offset]) hphoff, address_in_eq (by rwa [relocate_offset]) hlt,
      relocate_offset, relocate_offset] at haddress
    have hplaces := add_relocate haddress
    have happart := hapart.apart
    rw [hsplit] at happart
    obtain ⟨-, hright, hcross⟩ := List.pairwise_append.mp happart
    rcases List.mem_append.mp hsegment' with hpre | hrest
    · exact absurd hplaces (hcross segment' hpre segment (by simp) htype' hreach.1
        _ (by omega) _ (by omega))
    rcases List.mem_cons.mp hrest with rfl | hlater
    · -- the segment has the table, and the offsets are the same
      have hmod : segment'.p_vaddr + ((program_header L.format f).e_phoff - segment'.p_offset) ≡
          segment'.p_vaddr + (pre.foldl (phoff_step f (phoff_after L.format files depth))
            (program_header L.format f).e_phoff - segment'.p_offset) [MOD 2 ^ L.format.bits] := hplaces
      have hsame := Nat.ModEq.eq_of_lt_of_lt (Nat.ModEq.add_left_cancel' _ hmod) (by omega) (by omega)
      have hforce : in_force L.format f files depth pre = (program_header L.format f).e_phoff := by
        unfold in_force
        omega
      refine ⟨pre, segment', post, hsplit, htable, ⟨hreach.1, ?_⟩, hforce, hpost⟩
      rw [← hforce]
      exact hreach.2
    · have hlast := (List.pairwise_cons.mp hright).1 segment' hlater hreach.1 htype'
      exact absurd hplaces.symm (hlast _ (by omega) _ (by omega))

theorem phoff_lt {F : elf_format} (hF : F = elf64 ∨ F = elf32) (f : List UInt8) :
    (program_header F f).e_phoff < 2 ^ F.bits := by
  have hfield : ∀ (bs : List UInt8) offset n, field bs offset n < 256 ^ n := by
    intro bs offset n
    refine Nat.lt_of_lt_of_le (Bytes.ofLE_lt _) (Nat.pow_le_pow_right (by decide) ?_)
    exact List.length_take_le _ _
  unfold program_header elf_format.getEntry
  rcases hF with rfl | rfl <;> split
  · exact Nat.two_pow_pos _
  · exact hfield _ 32 8
  · exact Nat.two_pow_pos _
  · exact hfield _ 28 4

/-- The information is that of the program when a segment with the table is found by the program's
    offset, and no later one by an interpreter's. Where the segments lie apart nothing else
    makes it right. -/
theorem program_described (hfile : files file = some f) (hr : r ≠ 0) :
    (load64 ops files (depth + 1) file s auxv_info = some (s', auxv_info', r) →
      (table_kept elf64 f files depth → Describes elf64 f auxv_info') ∧
      (segments_apart elf64 f → auxv_info.load_AT_PHDR ∉ table_addresses elf64 f →
        Describes elf64 f auxv_info' → table_kept elf64 f files depth)) ∧
    (load32 ops files (depth + 1) file s auxv_info = some (s', auxv_info', r) →
      (table_kept elf32 f files depth → Describes elf32 f auxv_info') ∧
      (segments_apart elf32 f → auxv_info.load_AT_PHDR ∉ table_addresses elf32 f →
        Describes elf32 f auxv_info' → table_kept elf32 f files depth)) := by
  have h64 : OnlyAdjusts (loader64 ops) := fun _ _ _ _ _ _ _ _ _ h => mapSegment64_adjusts h
  have h32 : OnlyAdjusts (loader32 ops) := fun _ _ _ _ _ _ _ _ _ h => mapSegment32_adjusts h
  refine ⟨fun h => ⟨describes_of_kept h64 hfile h hr, ?_⟩,
    fun h => ⟨describes_of_kept h32 hfile h hr, ?_⟩⟩
  · exact kept_of_describes h64 hfile h hr (phoff_lt (.inl rfl) f)
  · exact kept_of_describes h32 hfile h hr (phoff_lt (.inr rfl) f)

end files

/-! ## A program and an interpreter -/

section example_files

/-- An address space in which everything is granted. -/
def granting : space Unit where
  mmap_guest := fun _ q => some ((), q.addr)
  munmap_guest := fun _ _ _ => some ()
  clear := fun _ _ _ => some ()

/-- The headers of a program at 64, and those of its interpreter at another place. -/
def a_program : List UInt8 :=
  elf64_header ET_EXEC 0x400100 64 2 ++ (elf64_segment ⟨PT_INTERP, 4, 176, 0x4000b0, 2, 2⟩ ++
    (elf64_segment ⟨PT_LOAD, 5, 0, 0x400000, 178, 178⟩ ++ [0x69, 0]))

def an_interpreter (e_phoff : Nat) : List UInt8 :=
  elf64_header ET_DYN 0x100 e_phoff 1 ++ (List.replicate (e_phoff - 64) 0 ++
    elf64_segment ⟨PT_LOAD, 5, 0, 0, e_phoff + 56, e_phoff + 56⟩)

def some_files (e_phoff : Nat) (name : List UInt8) : Option (List UInt8) :=
  if name = [0x70] then some a_program
  else if name = [0x69] then some (an_interpreter e_phoff) else none

def load_a_program (e_phoff : Nat) : load_result Unit :=
  load64 granting (some_files e_phoff) 2 [0x70] ⟨(), 0, 0⟩ no_auxv_info

/-- The call succeeds and sets this address. -/
theorem load_of_map (e_phoff phdr r : Nat)
    (h : (load_a_program e_phoff).map (fun r => (r.2.1.load_AT_PHDR, r.2.2)) = some (phdr, r)) :
    ∃ s' auxv_info', load_a_program e_phoff = some (s', auxv_info', r) ∧
      auxv_info'.load_AT_PHDR = phdr := by
  obtain ⟨⟨s', auxv_info', r'⟩, hload, heq⟩ := Option.map_eq_some_iff.mp h
  cases heq
  exact ⟨s', auxv_info', hload, rfl⟩

/-- The interpreter has its headers at the same place. -/
theorem a_program_described : ∃ s' auxv_info',
    load_a_program 64 = some (s', auxv_info', 0x40000100) ∧ Describes elf64 a_program auxv_info' ∧
      table_kept elf64 a_program (some_files 64) 1 := by
  obtain ⟨s', auxv_info', hload, -⟩ :=
    load_of_map 64 0x400040 0x40000100 (by decide +kernel)
  have hfile : some_files 64 [0x70] = some a_program := rfl
  have hr : 0x40000100 ≠ 0 := by decide
  have hheaders : program_headers elf64 a_program (program_header elf64 a_program) =
      [⟨PT_INTERP, 4, 176, 0x4000b0, 2, 2⟩, ⟨PT_LOAD, 5, 0, 0x400000, 178, 178⟩] := by decide +kernel
  obtain ⟨hkept, hneeded⟩ := (program_described hfile hr).1 hload
  have hdescribes : Describes elf64 a_program auxv_info' := by
    refine hkept fun _ => ⟨[⟨PT_INTERP, 4, 176, 0x4000b0, 2, 2⟩],
      ⟨PT_LOAD, 5, 0, 0x400000, 178, 178⟩, [], hheaders, ?_, ?_, ?_, by simp⟩ <;> decide +kernel
  have hapart : segments_apart elf64 a_program := by
    refine ⟨by decide +kernel, ?_⟩
    rw [hheaders]
    exact List.pairwise_pair.mpr fun hinterp => absurd hinterp (by decide)
  exact ⟨s', auxv_info', hload, hdescribes, hneeded hapart (by decide +kernel) hdescribes⟩

/-- The interpreter has its headers at 128: the program is told that its own are there. -/
theorem a_program_misdescribed : ∃ s' auxv_info',
    load_a_program 128 = some (s', auxv_info', 0x40000100) ∧ ¬ Describes elf64 a_program auxv_info' := by
  obtain ⟨s', auxv_info', hload, hphdr⟩ :=
    load_of_map 128 0x400080 0x40000100 (by decide +kernel)
  refine ⟨s', auxv_info', hload, fun hdescribes => ?_⟩
  have hmem := hdescribes.phdr (by decide +kernel)
  rw [hphdr] at hmem
  exact absurd hmem (by decide +kernel)

end example_files

end Umeq.Loader
