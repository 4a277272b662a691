import Umeq.Loader.Auxv
import Umeq.Loader.GuestSpace

/-! # What a failed load leaves

    The undo loop unmaps the segments before the header that the loader has stopped at. It takes
    their addresses from the file, where they are not moved and not rounded, and it does not know
    of the header that failed, nor of an interpreter that was loaded. What else has been
    mapped stays mapped, and what is in the way of an address that was not moved is unmapped.

    * `Restored`: what is to hold.
    * `undoable`: a segment whose range is the one that the undo loop unmaps.
    * `spared_space`, `spared_loader64`, `spared_loader32`: runs in which whatever is granted to a
      segment is granted to one that can be undone.
-/

namespace Umeq.Loader

open Memory (layout answer typeAt Ordered Retypes KeepsTypes range_args PAGE_ALIGN_UP
  internal_mmap internal_munmap arm64_layout arm_layout)

/-! ## What is to hold -/

section purpose

variable (F : elf_format) (f : List UInt8)

/-- The addresses of the pages of a segment that is moved. -/
def in_pages (segment : Elf_Phdr) (x : Nat) : Prop :=
  page_start segment.p_vaddr ≤ x ∧ x < page_start (segment.p_vaddr + segment.p_memsz + (PAGE_SIZE - 1))

instance (segment : Elf_Phdr) (x : Nat) : Decidable (in_pages segment x) :=
  inferInstanceAs (Decidable (_ ∧ _))

/-- The loadable segments of a program, at their places. -/
def load_segments_of : List Elf_Phdr :=
  ((program_headers F f (program_header F f)).filter fun segment => segment.p_type = PT_LOAD).map
    fun segment => relocate F segment false ((program_header F f).e_type = ET_DYN)

/-- The addresses of a program. -/
def own_pages (x : Nat) : Prop := ∃ segment ∈ load_segments_of F f, in_pages segment x

instance (x : Nat) : Decidable (own_pages F f x) := inferInstanceAs (Decidable (∃ _ ∈ _, _))

/-- Every address has the type that it had, and no page is unmapped but those of the program. -/
structure Restored (m m' : guest_memory) : Prop where
  types : KeepsTypes m.world.vm.vma_list m'.world.vm.vma_list
  pages : ∀ p, m.world.host.mapped p → own_pages F f (p * PAGE_SIZE) ∨ m'.world.host.mapped p

/-- The ranges of the segments are not mapped. -/
def ranges_free (m : guest_memory) : Prop :=
  ∀ x, own_pages F f x → typeAt m.world.vm.vma_list x ≠ some .VMA_MAP

end purpose

/-! ## The runs that are spared -/

section runs

variable {M : Type}

/-- A space in which some calls have no result. -/
def space.within (ops : space M) (P : M → mmap_request → Bool) (Q : M → Nat → Nat → Bool) : space M where
  mmap_guest := fun m q => if P m q then ops.mmap_guest m q else none
  munmap_guest := fun m addr length => if Q m addr length then ops.munmap_guest m addr length else none
  clear := ops.clear

/-- A loader in which some segments have no result. -/
def loader.within (L : loader M) (P : M → List UInt8 → Elf_Phdr → Bool → Bool → Bool) : loader M :=
  { L with
    mapSegment := fun s f segment auxv_info is_dl is_share_object =>
      if P s.mem f segment is_dl is_share_object then
        L.mapSegment s f segment auxv_info is_dl is_share_object
      else none }

end runs

section conditions

variable (F : elf_format) (L : layout)

/-- The address is not 0, which `mmap_guest` takes for a call without an address. The
    page of descriptors is left in reserve. -/
def map_spared (m : guest_memory) (q : mmap_request) : Bool :=
  q.addr ≠ 0 ∧
    (internal_mmap L m.world q.addr q.length q.prot.PROT_EXEC true (m.answers 0)).all
      (·.1.vm.desc_next_memory)

/-- The host unmaps a range of whole pages. The page of descriptors is left in reserve. -/
def unmap_spared (m : guest_memory) (addr length : Nat) : Bool :=
  (range_args addr length → m.answers 0 = .accepts) ∧
    (internal_munmap m.world addr length (m.answers 0)).all (·.1.vm.desc_next_memory)

/-- The segment is not moved and begins with a page: its range is the one that is unmapped. -/
def undoable (segment : Elf_Phdr) (is_dl is_share_object : Bool) : Prop :=
  is_dl = false ∧ is_share_object = false ∧ range_args segment.p_vaddr segment.p_memsz ∧
    segment.p_filesz ≤ segment.p_memsz ∧ segment.p_vaddr + segment.p_memsz ≤ 2 ^ F.bits

instance (segment : Elf_Phdr) (is_dl is_share_object : Bool) :
    Decidable (undoable F segment is_dl is_share_object) :=
  inferInstanceAs (Decidable (_ ∧ _))

/-- The request for the file part of a segment that is moved. -/
def file_request (segment : Elf_Phdr) (f : List UInt8) : mmap_request where
  addr := page_start segment.p_vaddr
  length := F.add segment.p_filesz (page_offset segment.p_vaddr)
  prot := elfToMapProtection segment.p_flags
  source := some (f, page_start segment.p_offset)

/-- The request for its zeros. -/
def bss_request (segment : Elf_Phdr) : mmap_request where
  addr := F.next_page (zeroAddr F segment)
  length := zeroAddrMapSize F segment
  prot := elfToMapProtection segment.p_flags
  source := none

/-- Zeros are mapped. -/
def needs_bss (segment : Elf_Phdr) : Prop :=
  zeroAddrSize F segment ≠ 0 ∧ 0 < F.signed (zeroAddrMapSize F segment)

instance (segment : Elf_Phdr) : Decidable (needs_bss F segment) :=
  inferInstanceAs (Decidable (_ ∧ _))

def mmap_request.granted (q : mmap_request) (a : answer) : Prop := Loader.granted a q.addr q.length

instance (q : mmap_request) (a : answer) : Decidable (q.granted a) :=
  inferInstanceAs (Decidable (Loader.granted _ _ _))

/-- In `mapSegment` of `loader64.c`, what is granted is granted to a segment that can be undone. -/
def segment_spared64 (m : guest_memory) (f : List UInt8) (segment : Elf_Phdr)
    (is_dl is_share_object : Bool) : Bool :=
  let moved := relocate F segment is_dl is_share_object
  (if moved.p_filesz ≠ 0 then (file_request F moved f).granted (m.answers 0)
    else needs_bss F moved ∧ (bss_request F moved).granted (m.answers 0)) →
  undoable F segment is_dl is_share_object

/-- In the one of `loader32.c` the zeros are granted too once the file part is. -/
def segment_spared32 (m : guest_memory) (f : List UInt8) (segment : Elf_Phdr)
    (is_dl is_share_object : Bool) : Bool :=
  let moved := relocate F segment is_dl is_share_object
  (file_request F moved f).granted (m.answers 0) →
  undoable F segment is_dl is_share_object ∧
    (needs_bss F moved → (bss_request F moved).granted (m.answers 2))

/-- The space and the two loaders, in such runs. -/
def spared_space (bits : Nat) : space guest_memory :=
  (guest_space L bits).within (map_spared L) unmap_spared

end conditions

def spared_loader64 : loader guest_memory :=
  (loader64 (spared_space arm64_layout 64)).within (segment_spared64 elf64)

def spared_loader32 : loader guest_memory :=
  (loader32 (spared_space arm_layout 32)).within (segment_spared32 elf32)

/-- The run of `load64` is such a run. -/
def spared64 (files : List UInt8 → Option (List UInt8)) (depth : Nat) (file : List UInt8)
    (s : load_state guest_memory) (auxv_info : load_auxv_info) : Prop :=
  (load_internal spared_loader64 (spared_space arm64_layout 64) files depth file s auxv_info
    false).isSome = true

/-- The run of `load32` is such a run. -/
def spared32 (files : List UInt8 → Option (List UInt8)) (depth : Nat) (file : List UInt8)
    (s : load_state guest_memory) (auxv_info : load_auxv_info) : Prop :=
  (load_internal spared_loader32 (spared_space arm_layout 32) files depth file s auxv_info
    false).isSome = true

/-! ## A spared run is a run -/

section within

variable {M : Type} {F : elf_format} {ops ops' : space M}

/-- What the one space answers, the other one answers too. -/
structure space.Extends (ops ops' : space M) : Prop where
  mmap : ∀ m q r, ops'.mmap_guest m q = some r → ops.mmap_guest m q = some r
  munmap : ∀ m addr length r, ops'.munmap_guest m addr length = some r →
    ops.munmap_guest m addr length = some r
  clear : ∀ m a b r, ops'.clear m a b = some r → ops.clear m a b = some r

theorem of_ite_some {α : Type} {p : Prop} [Decidable p] {x : Option α} {a : α}
    (h : (if p then x else none) = some a) : p ∧ x = some a := by
  by_cases hp : p
  · rw [if_pos hp] at h
    exact ⟨hp, h⟩
  · rw [if_neg hp] at h
    cases h

theorem within_extends (ops : space M) (P : M → mmap_request → Bool) (Q : M → Nat → Nat → Bool) :
    ops.Extends (ops.within P Q) where
  mmap := fun _ _ _ h => (of_ite_some h).2
  munmap := fun _ _ _ _ h => (of_ite_some h).2
  clear := fun _ _ _ _ h => h

/-- The order of two parts of a function. -/
theorem bind_extends {α β : Type} {x x' : Option α} {k k' : α → Option β} {b : β}
    (hx : ∀ a, x' = some a → x = some a) (hk : ∀ a, k' a = some b → k a = some b)
    (h : x'.bind k' = some b) : x.bind k = some b := by
  obtain ⟨a, hxa, hka⟩ := Option.bind_eq_some_iff.mp h
  exact Option.bind_eq_some_iff.mpr ⟨a, hx a hxa, hk a hka⟩

theorem map_file_extends (h : ops.Extends ops') (m : M) (segment : Elf_Phdr) (f : List UInt8) :
    ∀ r, map_file F ops' m segment f = some r → map_file F ops m segment f = some r := by
  intro r hr
  exact bind_extends (h.mmap _ _) (fun _ hk => hk) hr

theorem clear_bss_extends (h : ops.Extends ops') (m : M) (segment : Elf_Phdr) :
    ∀ r, clear_bss F ops' m segment = some r → clear_bss F ops m segment = some r := by
  intro r hr
  refine bind_extends (h.clear _ _ _) (fun m' hk => ?_) hr
  split_ifs at hk ⊢
  · exact h.clear _ _ _ _ hk
  · exact hk

theorem map_bss_extends (h : ops.Extends ops') (m : M) (segment : Elf_Phdr) :
    ∀ r, map_bss F ops' m segment = some r → map_bss F ops m segment = some r := by
  intro r hr
  unfold map_bss at hr ⊢
  split_ifs at hr ⊢
  · refine bind_extends (h.mmap _ _) (fun x hk => ?_) hr
    dsimp only at hk ⊢
    split_ifs at hk ⊢
    · exact bind_extends (clear_bss_extends h _ _) (fun _ hk => hk) hk
    · exact hk
  · exact bind_extends (clear_bss_extends h _ _) (fun _ hk => hk) hr

theorem map_file_part_extends (h : ops.Extends ops') (m : M) (segment : Elf_Phdr) (f : List UInt8) :
    ∀ r, map_file_part F ops' m segment f = some r → map_file_part F ops m segment f = some r := by
  intro r hr
  unfold map_file_part at hr ⊢
  split_ifs at hr ⊢
  · exact hr
  · exact map_file_extends h m segment f r hr

variable (s : load_state M) (f : List UInt8) (segment : Elf_Phdr) (auxv_info : load_auxv_info)
  (is_dl is_share_object : Bool)

theorem mapSegment64_extends (h : ops.Extends ops') :
    ∀ r, mapSegment64 F ops' s f segment auxv_info is_dl is_share_object = some r →
      mapSegment64 F ops s f segment auxv_info is_dl is_share_object = some r := by
  intro r hr
  unfold mapSegment64 at hr ⊢
  refine bind_extends (map_file_part_extends h _ _ _) (fun x hk => ?_) hr
  dsimp only at hk ⊢
  split_ifs at hk ⊢
  · exact hk
  · exact bind_extends (map_bss_extends h _ _) (fun _ hk => hk) hk
  · exact hk

theorem mapSegment32_extends (h : ops.Extends ops') :
    ∀ r, mapSegment32 F ops' s f segment auxv_info is_dl is_share_object = some r →
      mapSegment32 F ops s f segment auxv_info is_dl is_share_object = some r := by
  intro r hr
  unfold mapSegment32 at hr ⊢
  refine bind_extends (map_file_extends h _ _ _) (fun x hk => ?_) hr
  dsimp only at hk ⊢
  split_ifs at hk ⊢
  · exact hk
  · exact bind_extends (map_bss_extends h _ _) (fun _ hk => hk) hk
  · exact hk

end within

section files

variable {M : Type} {L L' : loader M} {ops ops' : space M}

/-- What the one loader does for a segment, the other one does too. -/
structure loader.Extends (L L' : loader M) : Prop where
  format : L'.format = L.format
  fdpic : L'.elf_is_fdpic = L.elf_is_fdpic
  map : ∀ s f segment auxv_info is_dl is_share_object r,
    L'.mapSegment s f segment auxv_info is_dl is_share_object = some r →
      L.mapSegment s f segment auxv_info is_dl is_share_object = some r

theorem load_segment_extends (hL : L.Extends L')
    {load_dl load_dl' : List UInt8 → load_state M → load_result M}
    (hdl : ∀ name s r, load_dl' name s = some r → load_dl name s = some r) (f : List UInt8)
    (hdr : Elf_Ehdr) (is_dl : Bool) (l : loop_state M) (i : Nat) :
    ∀ r, load_segment L' load_dl' f hdr is_dl l i = some r →
      load_segment L load_dl f hdr is_dl l i = some r := by
  intro r hr
  unfold load_segment at hr ⊢
  rw [hL.format] at hr
  cases hsegment : L.format.getSegment f hdr i with
  | none =>
    simp only [hsegment] at hr ⊢
    exact hr
  | some segment =>
    simp only [hsegment] at hr ⊢
    split_ifs at hr ⊢
    · exact bind_extends (hL.map _ _ _ _ _ _) (fun _ hk => hk) hr
    · refine bind_extends (fun _ hx => hx) (fun name hk => ?_) hr
      exact bind_extends (hdl _ _) (fun _ hk => hk) hk
    · exact hr
    · exact hr

theorem load_segments_extends (hL : L.Extends L')
    {load_dl load_dl' : List UInt8 → load_state M → load_result M}
    (hdl : ∀ name s r, load_dl' name s = some r → load_dl name s = some r) (f : List UInt8)
    (hdr : Elf_Ehdr) (is_dl : Bool) (is : List Nat) (l : loop_state M) :
    ∀ r, load_segments L' load_dl' f hdr is_dl is l = some r →
      load_segments L load_dl f hdr is_dl is l = some r := by
  induction is generalizing l with
  | nil => exact fun _ hr => hr
  | cons i is ih =>
    intro r hr
    refine bind_extends (load_segment_extends hL hdl f hdr is_dl l i) (fun x hk => ?_) hr
    dsimp only at hk ⊢
    split_ifs at hk ⊢
    · exact ih x.1 r hk
    · exact hk

theorem unmap_segments_extends (hL : L.Extends L') (hops : ops.Extends ops') (f : List UInt8)
    (hdr : Elf_Ehdr) (i : Nat) (m : M) :
    ∀ r, unmap_segments L' ops' f hdr i m = some r → unmap_segments L ops f hdr i m = some r := by
  induction i generalizing m with
  | zero => exact fun _ hr => hr
  | succ i ih =>
    intro r hr
    unfold unmap_segments at hr ⊢
    rw [hL.format] at hr
    cases hsegment : L.format.getSegment f hdr i with
    | none =>
      simp only [hsegment] at hr ⊢
      exact ih m r hr
    | some segment =>
      simp only [hsegment] at hr ⊢
      split_ifs at hr ⊢
      · exact bind_extends (hops.munmap _ _ _) (fun m' hk => ih m' r hk) hr
      · exact ih m r hr

theorem load_internal_extends (hL : L.Extends L') (hops : ops.Extends ops')
    (files : List UInt8 → Option (List UInt8)) (depth : Nat) (file : List UInt8) (s : load_state M)
    (auxv_info : load_auxv_info) (is_dl : Bool) :
    ∀ r, load_internal L' ops' files depth file s auxv_info is_dl = some r →
      load_internal L ops files depth file s auxv_info is_dl = some r := by
  induction depth generalizing file s auxv_info is_dl with
  | zero => exact fun _ hr => hr
  | succ depth ih =>
    intro r hr
    unfold load_internal at hr ⊢
    cases hfile : files file with
    | none =>
      simp only [hfile] at hr ⊢
      exact hr
    | some f =>
      simp only [hfile, hL.format, hL.fdpic] at hr ⊢
      split_ifs at hr ⊢
      · exact hr
      · refine bind_extends (load_segments_extends hL (fun _ _ => ih _ _ _ _) f _ _ _ _)
          (fun x hk => ?_) hr
        obtain ⟨l, stopped⟩ := x
        cases stopped with
        | none =>
          unfold note_dynamic get_fdpic_dynamic_addr at hk ⊢
          rw [hL.format] at hk
          exact hk
        | some i => exact bind_extends (unmap_segments_extends hL hops f _ i _) (fun _ hk => hk) hk

end files

/-- The loaders in spared runs. -/
theorem spared_loader64_extends : (loader64 (guest_space arm64_layout 64)).Extends spared_loader64 where
  format := rfl
  fdpic := rfl
  map := fun s f segment auxv_info is_dl is_share_object r h =>
    mapSegment64_extends s f segment auxv_info is_dl is_share_object (within_extends _ _ _) r
      (of_ite_some h).2

theorem spared_loader32_extends : (loader32 (guest_space arm_layout 32)).Extends spared_loader32 where
  format := rfl
  fdpic := rfl
  map := fun s f segment auxv_info is_dl is_share_object r h =>
    mapSegment32_extends s f segment auxv_info is_dl is_share_object (within_extends _ _ _) r
      (of_ite_some h).2

/-! ## What a run has changed -/

/-- Addresses that have an owner keep it, and those not in `R` their type; of the pages of the
    host only those in `S` may be unmapped. -/
structure Near (S R : Nat → Prop) (w w' : Memory.world) : Prop where
  ordered : Ordered w'.vm.vma_list
  reserve : w'.vm.desc_next_memory = true
  types : ∀ x v, typeAt w.vm.vma_list x = some v →
    ∃ v', typeAt w'.vm.vma_list x = some v' ∧ (¬ R x → v' = v)
  pages : ∀ p, w.host.mapped p → S (p * PAGE_SIZE) ∨ w'.host.mapped p

section near

variable {S S' R R' : Nat → Prop} {w w' w'' : Memory.world}

theorem Near.refl (hord : Ordered w.vm.vma_list) (hres : w.vm.desc_next_memory = true) : Near S R w w :=
  ⟨hord, hres, fun _ v hv => ⟨v, hv, fun _ => rfl⟩, fun _ hp => .inr hp⟩

theorem Near.trans (h : Near S R w w') (h' : Near S R' w' w'') : Near S (fun x => R x ∨ R' x) w w'' where
  ordered := h'.ordered
  reserve := h'.reserve
  types := by
    intro x v hv
    obtain ⟨v', hv', heq⟩ := h.types x v hv
    obtain ⟨v'', hv'', heq'⟩ := h'.types x v' hv'
    refine ⟨v'', hv'', fun hR => ?_⟩
    rw [heq' fun hx => hR (.inr hx), heq fun hx => hR (.inl hx)]
  pages := by
    intro p hp
    rcases h.pages p hp with hS | hp
    · exact .inl hS
    · exact h'.pages p hp

theorem Near.mono (h : Near S R w w') (hS : ∀ x, S x → S' x) (hR : ∀ x, R x → R' x) : Near S' R' w w' where
  ordered := h.ordered
  reserve := h.reserve
  types := by
    intro x v hv
    obtain ⟨v', hv', heq⟩ := h.types x v hv
    exact ⟨v', hv', fun hx => heq fun hRx => hx (hR x hRx)⟩
  pages := fun p hp => (h.pages p hp).imp_left (hS _)

end near

section spared

variable {L : layout} {bits : Nat} {m m' : guest_memory} {q : mmap_request} {addr length r : Nat}

/-- An insertion, with what it does to the pages of the host. -/
theorem near_insert {S R : Nat → Prop} {w w' : Memory.world} {s e : Nat} {t : Memory.vma_type}
    (hord : Ordered w.vm.vma_list) (hse : s < e) (hins : w.vm.insert s e t = some w'.vm)
    (hres : w'.vm.desc_next_memory = true) (hR : ∀ x, s ≤ x → x < e → R x)
    (hpages : ∀ p, w.host.mapped p → S (p * PAGE_SIZE) ∨ w'.host.mapped p) : Near S R w w' := by
  obtain ⟨u, hu, hlist, -, -⟩ := Memory.insert_spec hins
  have hret := Memory.insert_area_some hord hse hu
  refine ⟨hlist ▸ hret.ordered, hres, ?_, hpages⟩
  intro x v hv
  refine ⟨_, hlist ▸ hret.agree x v hv, fun hx => ?_⟩
  rw [if_neg]
  intro hin
  exact hx (hR x hin.1 hin.2)

/-- A range that is granted is not empty. -/
theorem range_pos (h : range_args addr length) : 0 < PAGE_ALIGN_UP length := by
  obtain ⟨-, hpos, hlim⟩ := h
  have hup := (Memory.PAGE_ALIGN_UP_spec (show length ≤ Memory.TASK_SIZE by omega)).2.1
  omega

theorem mapped_fill_some (h : Memory.host) (s e p : Nat) (hp : h.mapped p) :
    (h.fill s e (some .other)).mapped p := by
  rw [Memory.mapped_fill]
  unfold Memory.setRange
  split_ifs
  · rfl
  · exact hp

/-- What the addresses of a request are. -/
def mmap_request.inside (q : mmap_request) (x : Nat) : Prop :=
  q.addr ≤ x ∧ x < q.addr + PAGE_ALIGN_UP q.length

theorem spared_mmap_world
    (h : (spared_space L bits).mmap_guest m q = some (m', r)) :
    ∃ res, q.addr ≠ 0 ∧
      internal_mmap L m.world q.addr q.length q.prot.PROT_EXEC true (m.answers 0) = some (m'.world, res) ∧
      m'.world.vm.desc_next_memory = true ∧ r = guest_ptr bits res ∧
      m'.answers = fun n => m.answers (n + 2) := by
  obtain ⟨hspared, h⟩ := of_ite_some h
  obtain ⟨h0, hall⟩ := of_decide_eq_true hspared
  obtain ⟨⟨w, res⟩, hmap, h⟩ := Option.bind_eq_some_iff.mp h
  rw [hmap] at hall
  have hres : w.vm.desc_next_memory = true := hall
  dsimp only at h
  rw [Memory.Brk.refill_idle hres] at h
  refine ⟨res, h0, ?_⟩
  cases res with
  | ok x =>
    cases h
    exact ⟨hmap, hres, rfl, rfl⟩
  | error errno =>
    cases h
    exact ⟨hmap, hres, rfl, rfl⟩

theorem spared_mmap_granted {S : Nat → Prop} (hord : Ordered m.world.vm.vma_list)
    (hg : q.granted (m.answers 0)) (h : (spared_space L bits).mmap_guest m q = some (m', r)) :
    r = q.addr % 2 ^ bits ∧ Near S q.inside m.world m'.world := by
  obtain ⟨res, h0, hmap, hres, hr, -⟩ := spared_mmap_world h
  obtain ⟨rfl, hhost, hins⟩ := internal_mmap_granted h0 hg hmap
  have hpos := range_pos hg.2
  refine ⟨hr, near_insert hord (by omega) hins hres (fun x hlo hhi => ⟨hlo, hhi⟩) ?_⟩
  intro p hp
  rw [hhost]
  exact .inr (mapped_fill_some _ _ _ p hp)

theorem spared_mmap_refused (hbits : bits = 32 ∨ bits = 64) (hg : ¬ q.granted (m.answers 0))
    (h : (spared_space L bits).mmap_guest m q = some (m', r)) :
    m'.world = m.world ∧ r % PAGE_SIZE ≠ 0 := by
  obtain ⟨res, h0, hmap, -, hr, -⟩ := spared_mmap_world h
  obtain ⟨hw, errno, rfl, herrno⟩ := internal_mmap_refused h0 hg hmap
  refine ⟨hw, ?_⟩
  have hrange : 0 < errno ∧ errno < PAGE_SIZE := by
    rcases herrno with ha | rfl
    · exact m.errno_range 0 errno ha
    · decide
  rw [hr]
  unfold guest_ptr PAGE_SIZE at *
  rcases hbits with rfl | rfl <;> dsimp only <;> omega

theorem spared_munmap_world (h : (spared_space L bits).munmap_guest m addr length = some m') :
    ∃ res, internal_munmap m.world addr length (m.answers 0) = some (m'.world, res) ∧
      m'.world.vm.desc_next_memory = true ∧ (range_args addr length → m.answers 0 = .accepts) := by
  obtain ⟨hspared, h⟩ := of_ite_some h
  obtain ⟨haccepts, hall⟩ := of_decide_eq_true hspared
  obtain ⟨⟨w, res⟩, hunmap, h⟩ := Option.bind_eq_some_iff.mp h
  rw [hunmap] at hall
  have hres : w.vm.desc_next_memory = true := hall
  dsimp only at h
  rw [Memory.Brk.refill_idle hres] at h
  cases h
  exact ⟨res, hunmap, hres, haccepts⟩

/-- A range of whole pages is free afterwards. -/
theorem spared_munmap_granted {S R : Nat → Prop} (hord : Ordered m.world.vm.vma_list)
    (hargs : range_args addr length)
    (h : (spared_space L bits).munmap_guest m addr length = some m')
    (hS : ∀ x, addr ≤ x → x < addr + PAGE_ALIGN_UP length → S x ∧ R x) :
    Near S R m.world m'.world ∧ ∀ x v, addr ≤ x → x < addr + PAGE_ALIGN_UP length →
      typeAt m.world.vm.vma_list x = some v → typeAt m'.world.vm.vma_list x = some .VMA_UNMAP := by
  obtain ⟨res, hunmap, hres, haccepts⟩ := spared_munmap_world h
  obtain ⟨hhost, hins⟩ := internal_munmap_granted ⟨haccepts hargs, hargs⟩ hunmap
  have hpos := range_pos hargs
  constructor
  · refine near_insert hord (by omega) hins hres (fun x hlo hhi => (hS x hlo hhi).2) ?_
    intro p hp
    by_cases hin : addr ≤ p * PAGE_SIZE ∧ p * PAGE_SIZE < addr + PAGE_ALIGN_UP length
    · exact .inl (hS _ hin.1 hin.2).1
    · right
      rw [hhost, Memory.mapped_fill]
      unfold Memory.setRange
      exact (if_neg hin).mpr hp
  · intro x v hlo hhi hv
    obtain ⟨u, hu, hlist, -, -⟩ := Memory.insert_spec hins
    have hret := Memory.insert_area_some hord (by omega) hu
    have htype := hret.agree x v hv
    rw [if_pos ⟨hlo, hhi⟩] at htype
    rw [hlist]
    exact htype

theorem spared_munmap_refused (hargs : ¬ range_args addr length)
    (h : (spared_space L bits).munmap_guest m addr length = some m') : m'.world = m.world := by
  obtain ⟨res, hunmap, -, -⟩ := spared_munmap_world h
  exact internal_munmap_refused (fun hg => hargs hg.2) hunmap

/-- Zeros that are written leave the map as it was. -/
theorem clear_bss_world {F : elf_format} {segment : Elf_Phdr}
    (h : clear_bss F (spared_space L bits) m segment = some m') :
    m'.world = m.world ∧ m'.answers = m.answers := by
  have hclear : ∀ {m m' : guest_memory} {a b : Nat}, clear_bytes m a b = some m' →
      m'.world = m.world ∧ m'.answers = m.answers := by
    intro m m' a b h
    cases (of_ite_some h).2
    exact ⟨rfl, rfl⟩
  obtain ⟨m₁, h₁, h⟩ := Option.bind_eq_some_iff.mp h
  split_ifs at h
  · obtain ⟨hw, ha⟩ := hclear h₁
    obtain ⟨hw', ha'⟩ := hclear h
    exact ⟨hw'.trans hw, ha'.trans ha⟩
  · cases h
    exact hclear h₁

end spared

/-! ## Segments -/

/-- The addresses of the pages of a segment that begins with a page. -/
def inside (segment : Elf_Phdr) (x : Nat) : Prop :=
  segment.p_vaddr ≤ x ∧ x < segment.p_vaddr + PAGE_ALIGN_UP segment.p_memsz

/-- What mapping a segment comes to in a spared run: the segment can be undone; or nothing is
    mapped, and nothing would be unmapped for it. -/
def Effect (F : elf_format) (segment : Elf_Phdr) (is_dl is_share_object : Bool)
    (w w' : Memory.world) (status : Bool) : Prop :=
  (status = true ∧ undoable F segment is_dl is_share_object ∧ ∀ S, Near S (inside segment) w w') ∨
  (w' = w ∧ (status = true → ¬ range_args segment.p_vaddr segment.p_memsz))

section segments

variable {F : elf_format} {L : layout} {m m' : guest_memory} {segment : Elf_Phdr} {f : List UInt8}
  {mapped is_dl is_share_object : Bool}

theorem page_start_aligned (a : Nat) : page_start a % PAGE_SIZE = 0 := by
  unfold page_start PAGE_SIZE
  omega

/-- A page of the address space is returned as it was asked for. -/
theorem page_start_mod {a n : Nat} (h : a < n) : page_start a % n = page_start a := by
  unfold page_start PAGE_SIZE
  exact Nat.mod_eq_of_lt (by omega)

theorem map_file_granted (hord : Ordered m.world.vm.vma_list)
    (hg : (file_request F segment f).granted (m.answers 0)) (hlt : segment.p_vaddr < 2 ^ F.bits)
    (h : map_file F (spared_space L F.bits) m segment f = some (m', mapped)) :
    mapped = true ∧ m'.answers = (fun n => m.answers (n + 2)) ∧
      ∀ S, Near S (file_request F segment f).inside m.world m'.world := by
  obtain ⟨⟨m₁, r⟩, hmap, h⟩ := Option.bind_eq_some_iff.mp h
  cases h
  obtain ⟨res, -, -, -, -, hanswers⟩ := spared_mmap_world hmap
  have hr := (spared_mmap_granted (S := fun _ => True) hord hg hmap).1
  refine ⟨?_, hanswers, fun S => (spared_mmap_granted hord hg hmap).2⟩
  rw [decide_eq_true_eq, hr]
  exact page_start_mod hlt

theorem map_file_refused (hbits : F.bits = 32 ∨ F.bits = 64)
    (hg : ¬ (file_request F segment f).granted (m.answers 0))
    (h : map_file F (spared_space L F.bits) m segment f = some (m', mapped)) :
    mapped = false ∧ m'.world = m.world := by
  obtain ⟨⟨m₁, r⟩, hmap, h⟩ := Option.bind_eq_some_iff.mp h
  cases h
  obtain ⟨hw, hr⟩ := spared_mmap_refused hbits hg hmap
  refine ⟨?_, hw⟩
  rw [decide_eq_false_iff_not]
  rintro rfl
  exact hr (page_start_aligned _)

theorem map_bss_granted (hord : Ordered m.world.vm.vma_list)
    (hneeds : 0 < F.signed (zeroAddrMapSize F segment))
    (hg : (bss_request F segment).granted (m.answers 0))
    (h : map_bss F (spared_space L F.bits) m segment = some (m', mapped)) :
    mapped = true ∧ ∀ S, Near S (bss_request F segment).inside m.world m'.world := by
  unfold map_bss at h
  rw [if_pos hneeds] at h
  obtain ⟨⟨m₁, r⟩, hmap, h⟩ := Option.bind_eq_some_iff.mp h
  have hr := (spared_mmap_granted (S := fun _ => True) hord hg hmap).1
  have hnext : r = F.next_page (zeroAddr F segment) := by
    rw [hr]
    exact page_start_mod (Nat.mod_lt _ (Nat.two_pow_pos _))
  dsimp only at h
  rw [if_pos hnext] at h
  obtain ⟨m₂, hclear, h⟩ := Option.bind_eq_some_iff.mp h
  cases h
  refine ⟨rfl, fun S => ?_⟩
  rw [(clear_bss_world hclear).1]
  exact (spared_mmap_granted hord hg hmap).2

theorem map_bss_refused (hbits : F.bits = 32 ∨ F.bits = 64)
    (hneeds : 0 < F.signed (zeroAddrMapSize F segment))
    (hg : ¬ (bss_request F segment).granted (m.answers 0))
    (h : map_bss F (spared_space L F.bits) m segment = some (m', mapped)) :
    mapped = false ∧ m'.world = m.world := by
  unfold map_bss at h
  rw [if_pos hneeds] at h
  obtain ⟨⟨m₁, r⟩, hmap, h⟩ := Option.bind_eq_some_iff.mp h
  obtain ⟨hw, hr⟩ := spared_mmap_refused hbits hg hmap
  have hnext : r ≠ F.next_page (zeroAddr F segment) := by
    rintro rfl
    exact hr (page_start_aligned _)
  dsimp only at h
  rw [if_neg hnext] at h
  cases h
  exact ⟨rfl, hw⟩

theorem map_bss_none (hneeds : ¬ 0 < F.signed (zeroAddrMapSize F segment))
    (h : map_bss F (spared_space L F.bits) m segment = some (m', mapped)) :
    mapped = true ∧ m'.world = m.world := by
  unfold map_bss at h
  rw [if_neg hneeds] at h
  obtain ⟨m₁, hclear, h⟩ := Option.bind_eq_some_iff.mp h
  cases h
  exact ⟨rfl, (clear_bss_world hclear).1⟩

/-- A segment that can be undone is not moved. -/
theorem undoable_relocate (h : undoable F segment is_dl is_share_object) :
    relocate F segment is_dl is_share_object = segment := by
  obtain ⟨rfl, rfl, -⟩ := h
  rfl

theorem undoable_lt (h : undoable F segment is_dl is_share_object) : segment.p_vaddr < 2 ^ F.bits := by
  obtain ⟨-, -, ⟨-, hpos, -⟩, -, htop⟩ := h
  omega

theorem up_mono {a b : Nat} (h : a ≤ b) (hb : b ≤ Memory.TASK_SIZE) :
    PAGE_ALIGN_UP a ≤ PAGE_ALIGN_UP b := by
  unfold PAGE_ALIGN_UP Memory.PAGE_ALIGN_DOWN Memory.add64 Memory.TASK_SIZE Memory.PAGE_SIZE at *
  omega

/-- Rounding up a length is rounding up an end. -/
theorem up_end {a b n k : Nat} (ha : a % PAGE_SIZE = 0) (hb : b % PAGE_SIZE = 0)
    (hn : n ≤ Memory.TASK_SIZE) (hk : k ≤ Memory.TASK_SIZE) (h : a + n = b + k) :
    a + PAGE_ALIGN_UP n = b + PAGE_ALIGN_UP k := by
  unfold PAGE_ALIGN_UP Memory.PAGE_ALIGN_DOWN Memory.add64 Memory.TASK_SIZE Memory.PAGE_SIZE
    PAGE_SIZE at *
  omega

/-- The zeros that are mapped begin with the page after the file part, and end with the segment. -/
theorem bss_end (hbits : F.bits = 32 ∨ F.bits = 64) (hle : segment.p_filesz ≤ segment.p_memsz)
    (htop : segment.p_vaddr + segment.p_memsz ≤ 2 ^ F.bits) (hneeds : needs_bss F segment) :
    segment.p_vaddr + segment.p_filesz ≤ F.next_page (zeroAddr F segment) ∧
      F.next_page (zeroAddr F segment) + zeroAddrMapSize F segment =
        segment.p_vaddr + segment.p_memsz := by
  obtain ⟨hsize, hmap⟩ := hneeds
  simp only [zeroAddr, zeroAddrSize, zeroAddrMapSize, elf_format.add, elf_format.sub,
    elf_format.next_page, elf_format.signed, page_start, PAGE_SIZE] at *
  rcases hbits with hb | hb <;> simp only [hb] at * <;> norm_num at * <;> split_ifs at hmap <;> omega

/-- The file part lies in the range that is unmapped. -/
theorem file_inside (h : undoable F segment is_dl is_share_object) (x : Nat)
    (hx : (file_request F segment f).inside x) : inside segment x := by
  obtain ⟨-, -, ⟨hal, hpos, hlim⟩, hle, htop⟩ := h
  obtain ⟨hlo, hhi⟩ := hx
  have hstart : page_start segment.p_vaddr = segment.p_vaddr := by
    unfold page_start PAGE_SIZE
    unfold Memory.PAGE_SIZE at hal
    omega
  have hoffset : page_offset segment.p_vaddr = 0 := hal
  have hlength : F.add segment.p_filesz (page_offset segment.p_vaddr) ≤ segment.p_memsz := by
    rw [hoffset]
    exact Nat.le_trans (Nat.mod_le _ _) hle
  have hup := up_mono hlength (by omega)
  simp only [file_request, hstart] at hlo hhi
  exact ⟨hlo, by omega⟩

/-- So do the zeros that are mapped. -/
theorem bss_inside (hbits : F.bits = 32 ∨ F.bits = 64) (h : undoable F segment is_dl is_share_object)
    (hneeds : needs_bss F segment) (x : Nat) (hx : (bss_request F segment).inside x) :
    inside segment x := by
  obtain ⟨-, -, ⟨hal, hpos, hlim⟩, hle, htop⟩ := h
  obtain ⟨hge, hend⟩ := bss_end hbits hle htop hneeds
  obtain ⟨hlo, hhi⟩ := hx
  have hup := up_end (page_start_aligned _) hal (by omega) (by omega) hend
  simp only [bss_request] at hlo hhi
  refine ⟨by omega, ?_⟩
  rw [← hup]
  exact hhi

/-- A segment is moved by whole pages, and its sizes stay. -/
theorem relocate_sizes (F : elf_format) (hbits : F.bits = 32 ∨ F.bits = 64) (segment : Elf_Phdr)
    (is_dl is_share_object : Bool) :
    (relocate F segment is_dl is_share_object).p_filesz = segment.p_filesz ∧
    (relocate F segment is_dl is_share_object).p_memsz = segment.p_memsz ∧
    (relocate F segment is_dl is_share_object).p_vaddr % PAGE_SIZE = segment.p_vaddr % PAGE_SIZE := by
  unfold relocate
  split_ifs
  · refine ⟨rfl, rfl, ?_⟩
    simp only [elf_format.add, PAGE_SIZE, DL_LOAD_ADDR]
    rcases hbits with hb | hb <;> rw [hb] <;> omega
  · refine ⟨rfl, rfl, ?_⟩
    simp only [elf_format.add, PAGE_SIZE, DL_SHARE_ADDR]
    rcases hbits with hb | hb <;> rw [hb] <;> omega
  · exact ⟨rfl, rfl, rfl⟩

theorem zeroAddrSize_ne (hlt : segment.p_filesz < segment.p_memsz) (hm : segment.p_memsz < 2 ^ F.bits) :
    zeroAddrSize F segment ≠ 0 := by
  simp only [zeroAddrSize, elf_format.sub]
  rw [show segment.p_memsz + 2 ^ F.bits - segment.p_filesz =
    segment.p_memsz - segment.p_filesz + 2 ^ F.bits by omega, Nat.add_mod_right,
    Nat.mod_eq_of_lt (by omega)]
  omega

/-- Zeros for which nothing is mapped: they do not begin with a page, or are too many. -/
theorem bss_small (hzero : segment.p_filesz = 0) (hpos : 0 < segment.p_memsz)
    (hm : segment.p_memsz < 2 ^ 64) (hneeds : ¬ needs_bss elf64 segment) (a : Nat)
    (ha : a % PAGE_SIZE = segment.p_vaddr % PAGE_SIZE) : ¬ range_args a segment.p_memsz := by
  rintro ⟨hal, -, hlim⟩
  refine hneeds ⟨zeroAddrSize_ne (by omega) hm, ?_⟩
  simp only [zeroAddr, zeroAddrSize, zeroAddrMapSize, elf_format.add, elf_format.sub,
    elf_format.next_page, elf_format.signed, page_start, PAGE_SIZE, Memory.PAGE_SIZE,
    Memory.TASK_SIZE, hzero, elf64] at *
  norm_num at *
  split_ifs <;> omega

end segments

section effects

variable {s s' : load_state guest_memory} {segment : Elf_Phdr} {f : List UInt8}
  {auxv_info auxv_info' : load_auxv_info} {is_dl is_share_object status : Bool}

theorem Effect.nothing {F : elf_format} {w : Memory.world} : Effect F segment is_dl is_share_object w w false :=
  .inr ⟨rfl, fun h => absurd h (by simp)⟩

/-- The zeros of a segment that can be undone, whether they are granted or not. -/
theorem bss_near {F : elf_format} {L : layout} {m m' : guest_memory} {mapped : Bool}
    {w : Memory.world} (hbits : F.bits = 32 ∨ F.bits = 64)
    (hundo : undoable F segment is_dl is_share_object) (hsize : zeroAddrSize F segment ≠ 0)
    (hin : ∀ S, Near S (inside segment) w m.world)
    (h : map_bss F (spared_space L F.bits) m segment = some (m', mapped)) :
    ∀ S, Near S (inside segment) w m'.world := by
  intro S
  by_cases hneeds : 0 < F.signed (zeroAddrMapSize F segment)
  · by_cases hg : (bss_request F segment).granted (m.answers 0)
    · have hnear := (map_bss_granted (hin S).ordered hneeds hg h).2 S
      refine ((hin S).trans hnear).mono (fun _ hS => hS) (fun x hx => ?_)
      rcases hx with hx | hx
      · exact hx
      · exact bss_inside hbits hundo ⟨hsize, hneeds⟩ x hx
    · rw [(map_bss_refused hbits hneeds hg h).2]
      exact hin S
  · rw [(map_bss_none hneeds h).2]
    exact hin S

/-- A segment without a file part. -/
theorem spared_zeros64 (hm : segment.p_memsz < 2 ^ 64) (hord : Ordered s.mem.world.vm.vma_list)
    (hres : s.mem.world.vm.desc_next_memory = true) (hzero : segment.p_filesz = 0)
    (hspared : segment_spared64 elf64 s.mem f segment is_dl is_share_object = true)
    (h : mapSegment64 elf64 (spared_space arm64_layout 64) s f segment auxv_info is_dl is_share_object =
      some (s', auxv_info', status)) :
    Effect elf64 segment is_dl is_share_object s.mem.world s'.mem.world status := by
  have hbits : elf64.bits = 32 ∨ elf64.bits = 64 := .inr rfl
  obtain ⟨hfilesz, hmemsz, hoffset⟩ := relocate_sizes elf64 hbits segment is_dl is_share_object
  have hspared := of_decide_eq_true hspared
  rw [hfilesz, if_neg (by simpa using hzero)] at hspared
  unfold mapSegment64 map_file_part at h
  dsimp only at h
  rw [if_pos (hfilesz.trans hzero)] at h
  simp only [Option.bind_eq_bind, Option.bind_some, not_true_eq_false, if_false] at h
  have hstatus : decide ((relocate elf64 segment is_dl is_share_object).p_filesz ≠ 0) = false := by
    rw [hfilesz]
    simpa using hzero
  rw [hstatus] at h
  split_ifs at h with heq hlt
  · cases h
    exact .nothing
  obtain ⟨⟨m, mapped⟩, hbss, h⟩ := Option.bind_eq_some_iff.mp h
  dsimp only at h
  have hsize : zeroAddrSize elf64 (relocate elf64 segment is_dl is_share_object) ≠ 0 :=
    zeroAddrSize_ne hlt (by rw [hmemsz]; exact hm)
  by_cases hneeds : needs_bss elf64 (relocate elf64 segment is_dl is_share_object)
  · by_cases hg : (bss_request elf64 (relocate elf64 segment is_dl is_share_object)).granted
        (s.mem.answers 0)
    · have hundo := hspared ⟨hneeds, hg⟩
      obtain ⟨rfl, -⟩ := map_bss_granted (L := arm64_layout) hord hneeds.2 hg hbss
      rw [if_neg (by simp)] at h
      cases h
      rw [undoable_relocate hundo] at hsize hbss
      exact .inl ⟨rfl, hundo, bss_near (L := arm64_layout) hbits hundo hsize
        (fun S => .refl hord hres) hbss⟩
    · obtain ⟨rfl, hw⟩ := map_bss_refused (L := arm64_layout) hbits hneeds.2 hg hbss
      rw [if_pos (by simp)] at h
      cases h
      exact .inr ⟨hw, by simp⟩
  -- nothing is mapped, and a write to a page that is not mapped would have stopped the emulator
  · obtain ⟨rfl, hw⟩ := map_bss_none (L := arm64_layout) (fun hpos => hneeds ⟨hsize, hpos⟩) hbss
    rw [if_neg (by simp)] at h
    cases h
    refine .inr ⟨hw, fun _ => ?_⟩
    rw [← hmemsz]
    exact bss_small (hfilesz.trans hzero) (by omega) (by omega) hneeds _ hoffset.symm

/-- A segment with a file part: once that is granted, the segment can be undone. -/
theorem spared_file64 (hm : segment.p_memsz < 2 ^ 64) (hord : Ordered s.mem.world.vm.vma_list)
    (hfile : segment.p_filesz ≠ 0)
    (hspared : segment_spared64 elf64 s.mem f segment is_dl is_share_object = true)
    (h : mapSegment64 elf64 (spared_space arm64_layout 64) s f segment auxv_info is_dl is_share_object =
      some (s', auxv_info', status)) :
    Effect elf64 segment is_dl is_share_object s.mem.world s'.mem.world status := by
  have hbits : elf64.bits = 32 ∨ elf64.bits = 64 := .inr rfl
  obtain ⟨hfilesz, hmemsz, -⟩ := relocate_sizes elf64 hbits segment is_dl is_share_object
  have hspared := of_decide_eq_true hspared
  rw [hfilesz, if_pos hfile] at hspared
  unfold mapSegment64 map_file_part at h
  dsimp only at h
  rw [if_neg (by rw [hfilesz]; exact hfile)] at h
  obtain ⟨⟨m, mapped⟩, hmap, h⟩ := Option.bind_eq_some_iff.mp h
  dsimp only at h
  by_cases hg : (file_request elf64 (relocate elf64 segment is_dl is_share_object) f).granted
      (s.mem.answers 0)
  · have hundo := hspared hg
    have hmoved := undoable_relocate hundo
    rw [hmoved] at hmap hg h
    obtain ⟨rfl, -, hnear⟩ := map_file_granted (L := arm64_layout) hord hg (undoable_lt hundo) hmap
    have hin : ∀ S, Near S (inside segment) s.mem.world m.world := fun S =>
      (hnear S).mono (fun _ hS => hS) (file_inside hundo)
    have hstatus : decide (segment.p_filesz ≠ 0) = true := by simpa using hfile
    rw [if_neg (by simp), hstatus] at h
    split_ifs at h with heq hlt
    · cases h
      exact .inl ⟨rfl, hundo, hin⟩
    -- the status is that of the file part, even when the zeros are refused
    · obtain ⟨⟨m', mapped⟩, hbss, h⟩ := Option.bind_eq_some_iff.mp h
      have hbss := bss_near (L := arm64_layout) hbits hundo (zeroAddrSize_ne hlt hm) hin hbss
      dsimp only at h
      split_ifs at h <;> cases h <;> exact .inl ⟨rfl, hundo, hbss⟩
  · obtain ⟨rfl, hw⟩ := map_file_refused (L := arm64_layout) hbits hg hmap
    rw [if_pos (by simp)] at h
    cases h
    exact .inr ⟨hw, by simp⟩

theorem spared_segment64 (hm : segment.p_memsz < 2 ^ 64) (hord : Ordered s.mem.world.vm.vma_list)
    (hres : s.mem.world.vm.desc_next_memory = true)
    (h : spared_loader64.mapSegment s f segment auxv_info is_dl is_share_object =
      some (s', auxv_info', status)) :
    Effect elf64 segment is_dl is_share_object s.mem.world s'.mem.world status := by
  obtain ⟨hspared, h⟩ := of_ite_some h
  by_cases hzero : segment.p_filesz = 0
  · exact spared_zeros64 hm hord hres hzero hspared h
  · exact spared_file64 hm hord hzero hspared h

/-- In `loader32.c` every segment has a file part, if only the bytes before it in its page. -/
theorem spared_segment32 (hord : Ordered s.mem.world.vm.vma_list)
    (h : spared_loader32.mapSegment s f segment auxv_info is_dl is_share_object =
      some (s', auxv_info', status)) :
    Effect elf32 segment is_dl is_share_object s.mem.world s'.mem.world status := by
  obtain ⟨hspared, h⟩ := of_ite_some h
  have hspared := of_decide_eq_true hspared
  have hbits : elf32.bits = 32 ∨ elf32.bits = 64 := .inl rfl
  have h : mapSegment32 elf32 (spared_space arm_layout 32) s f segment auxv_info is_dl is_share_object =
    some (s', auxv_info', status) := h
  unfold mapSegment32 at h
  obtain ⟨⟨m, mapped⟩, hmap, h⟩ := Option.bind_eq_some_iff.mp h
  dsimp only at h
  by_cases hg : (file_request elf32 (relocate elf32 segment is_dl is_share_object) f).granted
      (s.mem.answers 0)
  · obtain ⟨hundo, hzeros⟩ := hspared hg
    have hmoved := undoable_relocate hundo
    rw [hmoved] at hmap hg h hzeros
    obtain ⟨rfl, hanswers, hnear⟩ :=
      map_file_granted (L := arm_layout) hord hg (undoable_lt hundo) hmap
    have hin : ∀ S, Near S (inside segment) s.mem.world m.world := fun S =>
      (hnear S).mono (fun _ hS => hS) (file_inside hundo)
    rw [if_neg (by simp)] at h
    split_ifs at h with hsize
    · obtain ⟨auxv, -, h⟩ := Option.map_eq_some_iff.mp h
      cases h
      exact .inl ⟨rfl, hundo, hin⟩
    · obtain ⟨⟨m', mapped⟩, hbss, h⟩ := Option.bind_eq_some_iff.mp h
      dsimp only at h
      have hmapped : mapped = true := by
        by_cases hneeds : 0 < elf32.signed (zeroAddrMapSize elf32 segment)
        · have hg' : (bss_request elf32 segment).granted (m.answers 0) := by
            rw [hanswers]
            exact hzeros ⟨hsize, hneeds⟩
          exact (map_bss_granted (L := arm_layout) (hin fun _ => True).ordered hneeds hg' hbss).1
        · exact (map_bss_none (L := arm_layout) hneeds hbss).1
      rw [hmapped, if_neg (by simp)] at h
      obtain ⟨auxv, -, h⟩ := Option.map_eq_some_iff.mp h
      cases h
      exact .inl ⟨rfl, hundo, bss_near (L := arm_layout) hbits hundo hsize hin hbss⟩
  · obtain ⟨rfl, hw⟩ := map_file_refused (L := arm_layout) hbits hg hmap
    rw [if_pos (by simp)] at h
    obtain ⟨auxv, -, h⟩ := Option.map_eq_some_iff.mp h
    cases h
    exact .inr ⟨hw, by simp⟩

end effects

/-! ## The loop and its undoing -/

/-- No address. -/
def nowhere (_ : Nat) : Prop := False

/-- The addresses of the segments that can be undone, of some headers. -/
def undone_pages (F : elf_format) (f : List UInt8) (hdr : Elf_Ehdr) (is_dl : Bool) (is : List Nat)
    (x : Nat) : Prop :=
  ∃ i ∈ is, ∃ segment, F.getSegment f hdr i = some segment ∧ segment.p_type = PT_LOAD ∧
    undoable F segment is_dl (hdr.e_type = ET_DYN) ∧ inside segment x

/-- What is known of a header once the loop has passed it. -/
def passed (F : elf_format) (f : List UInt8) (hdr : Elf_Ehdr) (is_dl : Bool) (i : Nat) : Prop :=
  ∀ segment, F.getSegment f hdr i = some segment → segment.p_type = PT_LOAD →
    undoable F segment is_dl (hdr.e_type = ET_DYN) ∨ ¬ range_args segment.p_vaddr segment.p_memsz

/-- The segments of a loader have the effects of a spared run. -/
def OnlyUndoable (L : loader guest_memory) : Prop :=
  ∀ s f hdr i segment auxv_info is_dl is_share_object s' auxv_info' status,
    L.format.getSegment f hdr i = some segment → Ordered s.mem.world.vm.vma_list →
    s.mem.world.vm.desc_next_memory = true →
    L.mapSegment s f segment auxv_info is_dl is_share_object = some (s', auxv_info', status) →
      Effect L.format segment is_dl is_share_object s.mem.world s'.mem.world status

/-- A call for an interpreter leaves the types as they were. -/
def Quiet (load_dl : List UInt8 → load_state guest_memory → load_result guest_memory) : Prop :=
  ∀ name s s' auxv_info r, load_dl name s = some (s', auxv_info, r) →
    Ordered s.mem.world.vm.vma_list → s.mem.world.vm.desc_next_memory = true →
      ∀ S, Near S nowhere s.mem.world s'.mem.world

section loop

variable {L : loader guest_memory} {f : List UInt8} {hdr : Elf_Ehdr} {is_dl : Bool}
  {load_dl : List UInt8 → load_state guest_memory → load_result guest_memory}
  {l l' : loop_state guest_memory}

theorem load_segment_near (hL : OnlyUndoable L) (hdl : Quiet load_dl)
    (hord : Ordered l.state.mem.world.vm.vma_list)
    (hres : l.state.mem.world.vm.desc_next_memory = true) {i : Nat} {status : Bool}
    (h : load_segment L load_dl f hdr is_dl l i = some (l', status)) :
    (∀ S, Near S (fun x => status = true ∧ undone_pages L.format f hdr is_dl [i] x)
      l.state.mem.world l'.state.mem.world) ∧ (status = true → passed L.format f hdr is_dl i) := by
  have hsame : ∀ S R, Near S R l.state.mem.world l.state.mem.world := fun S R => .refl hord hres
  unfold load_segment at h
  cases hsegment : L.format.getSegment f hdr i with
  | none =>
    simp only [hsegment] at h
    cases h
    exact ⟨fun S => hsame S _, fun h => absurd h (by simp)⟩
  | some segment =>
    have hpassed : (segment.p_type = PT_LOAD → undoable L.format segment is_dl (hdr.e_type = ET_DYN) ∨
        ¬ range_args segment.p_vaddr segment.p_memsz) → passed L.format f hdr is_dl i := by
      intro h segment' hsegment' hload
      rw [hsegment] at hsegment'
      cases hsegment'
      exact h hload
    simp only [hsegment] at h
    split_ifs at h with hload hinterp hstack
    · obtain ⟨⟨s, auxv_info, status'⟩, hmap, h⟩ := Option.bind_eq_some_iff.mp h
      cases h
      rcases hL _ _ _ _ _ _ _ _ _ _ _ hsegment hord hres hmap with ⟨rfl, hundo, hnear⟩ | ⟨hw, hnot⟩
      · refine ⟨fun S => (hnear S).mono (fun _ hS => hS) ?_, fun _ => hpassed fun _ => .inl hundo⟩
        intro x hx
        exact ⟨rfl, i, List.mem_singleton_self i, segment, hsegment, hload, hundo, hx⟩
      · refine ⟨fun S => ?_, fun hs => hpassed fun _ => .inr (hnot hs)⟩
        show Near _ _ _ s.mem.world
        rw [hw]
        exact hsame S _
    · obtain ⟨dl_name, -, h⟩ := Option.bind_eq_some_iff.mp h
      obtain ⟨⟨s, dl_auxv_info, dl_entry⟩, hcall, h⟩ := Option.bind_eq_some_iff.mp h
      have hquiet := hdl _ _ _ _ _ hcall hord hres
      have hno : segment.p_type ≠ PT_LOAD := hload
      dsimp only at h
      split_ifs at h <;> cases h <;>
        exact ⟨fun S => (hquiet S).mono (fun _ hS => hS) (fun _ hx => hx.elim),
          fun _ => hpassed fun hload => absurd hload hno⟩
    · cases h
      exact ⟨fun S => hsame S _, fun _ => hpassed fun h => absurd h hload⟩
    · cases h
      exact ⟨fun S => hsame S _, fun _ => hpassed fun h => absurd h hload⟩

/-- The loop, with the headers that it has passed. -/
theorem load_segments_near (hL : OnlyUndoable L) (hdl : Quiet load_dl) {is : List Nat}
    (hord : Ordered l.state.mem.world.vm.vma_list)
    (hres : l.state.mem.world.vm.desc_next_memory = true) {stopped : Option Nat}
    (h : load_segments L load_dl f hdr is_dl is l = some (l', stopped)) :
    ∃ pre post, is = pre ++ post ∧ (∀ i, stopped = some i → post.head? = some i) ∧
      (∀ S, Near S (undone_pages L.format f hdr is_dl pre) l.state.mem.world l'.state.mem.world) ∧
      ∀ j ∈ pre, passed L.format f hdr is_dl j := by
  induction is generalizing l with
  | nil =>
    cases h
    exact ⟨[], [], rfl, fun i hi => (by cases hi), fun S => .refl hord hres, by simp⟩
  | cons i is ih =>
    obtain ⟨⟨l₁, status⟩, hturn, h⟩ := Option.bind_eq_some_iff.mp h
    obtain ⟨hnear, hpassed⟩ := load_segment_near hL hdl hord hres hturn
    dsimp only at h
    cases status with
    | false =>
      cases h
      refine ⟨[], i :: is, rfl, fun j hj => ?_, fun S => (hnear S).mono (fun _ hS => hS) ?_, by simp⟩
      · cases hj
        rfl
      · intro x hx
        exact absurd hx.1 (by simp)
    | true =>
      have hfirst := hnear fun _ => True
      obtain ⟨pre, post, rfl, hstopped, hrest, hall⟩ := ih hfirst.ordered hfirst.reserve h
      refine ⟨i :: pre, post, rfl, hstopped, fun S => ?_, ?_⟩
      · refine ((hnear S).trans (hrest S)).mono (fun _ hS => hS) (fun x hx => ?_)
        rcases hx with ⟨-, j, hj, hx⟩ | ⟨j, hj, hx⟩
        · exact ⟨j, List.mem_cons.mpr (.inl (List.mem_singleton.mp hj)), hx⟩
        · exact ⟨j, List.mem_cons_of_mem i hj, hx⟩
      · intro j hj
        rcases List.mem_cons.mp hj with rfl | hj
        · exact hpassed rfl
        · exact hall j hj

/-- The undo loop: what it unmaps was not mapped before the load. -/
theorem unmap_segments_near {lay : layout} {bits : Nat} {S : Nat → Prop} {w : Memory.world} {i : Nat}
    {m m' : guest_memory} (hpassed : ∀ j, j < i → passed L.format f hdr is_dl j)
    (hnear : Near S (undone_pages L.format f hdr is_dl (List.range i)) w m.world)
    (hS : ∀ x, undone_pages L.format f hdr is_dl (List.range i) x →
      S x ∧ ∀ v, typeAt w.vm.vma_list x = some v → v = .VMA_UNMAP)
    (h : unmap_segments L (spared_space lay bits) f hdr i m = some m') : Near S nowhere w m'.world := by
  induction i generalizing m with
  | zero =>
    cases h
    refine hnear.mono (fun _ hS => hS) ?_
    rintro x ⟨j, hj, -⟩
    simp at hj
  | succ i ih =>
    have hless : ∀ x, undone_pages L.format f hdr is_dl (List.range i) x →
        undone_pages L.format f hdr is_dl (List.range (i + 1)) x := by
      rintro x ⟨j, hj, hx⟩
      refine ⟨j, ?_, hx⟩
      rw [List.mem_range] at hj ⊢
      omega
    have hih := fun (m : guest_memory) hnear h =>
      ih (m := m) (fun j hj => hpassed j (by omega)) hnear (fun x hx => hS x (hless x hx)) h
    -- a header for which nothing is to be undone
    have hskip : (∀ x, undone_pages L.format f hdr is_dl (List.range (i + 1)) x →
        undone_pages L.format f hdr is_dl (List.range i) x) →
        Near S (undone_pages L.format f hdr is_dl (List.range i)) w m.world :=
      fun hR => hnear.mono (fun _ hS => hS) hR
    have hlast : ∀ x, undone_pages L.format f hdr is_dl (List.range (i + 1)) x →
        undone_pages L.format f hdr is_dl (List.range i) x ∨
          ∃ segment, L.format.getSegment f hdr i = some segment ∧ segment.p_type = PT_LOAD ∧
            undoable L.format segment is_dl (hdr.e_type = ET_DYN) ∧ inside segment x := by
      rintro x ⟨j, hj, hx⟩
      rw [List.mem_range] at hj
      rcases Nat.lt_succ_iff_lt_or_eq.mp hj with hlt | rfl
      · exact .inl ⟨j, List.mem_range.mpr hlt, hx⟩
      · exact .inr hx
    unfold unmap_segments at h
    cases hsegment : L.format.getSegment f hdr i with
    | none =>
      simp only [hsegment] at h hlast
      refine hih m (hskip fun x hx => ?_) h
      rcases hlast x hx with hx | ⟨segment, hnone, -⟩
      · exact hx
      · cases hnone
    | some segment =>
      simp only [hsegment, Option.some.injEq] at h hlast
      split_ifs at h with hload
      · obtain ⟨m₁, hunmap, h⟩ := Option.bind_eq_some_iff.mp h
        refine hih m₁ ?_ h
        by_cases hargs : range_args segment.p_vaddr segment.p_memsz
        · have hundo := (hpassed i (by omega) segment hsegment hload).resolve_right (not_not_intro hargs)
          have hin : ∀ x, inside segment x →
              undone_pages L.format f hdr is_dl (List.range (i + 1)) x := fun x hx =>
            ⟨i, List.mem_range.mpr (Nat.lt_succ_self i), segment, hsegment, hload, hundo, hx⟩
          obtain ⟨hstep, hfree⟩ := spared_munmap_granted (S := S) (R := inside segment) hnear.ordered
            hargs hunmap fun x hlo hhi => ⟨(hS x (hin x ⟨hlo, hhi⟩)).1, hlo, hhi⟩
          have hboth := hnear.trans hstep
          refine ⟨hstep.ordered, hstep.reserve, ?_, hboth.pages⟩
          intro x v hv
          obtain ⟨v', hv', heq⟩ := hboth.types x v hv
          refine ⟨v', hv', fun hx => ?_⟩
          by_cases hinside : inside segment x
          · obtain ⟨t, ht, -⟩ := hnear.types x v hv
            have hunmapped := hfree x t hinside.1 hinside.2 ht
            rw [hv'] at hunmapped
            rw [Option.some.inj hunmapped, (hS x (hin x hinside)).2 v hv]
          · refine heq ?_
            rintro (hx' | hx')
            · rcases hlast x hx' with hx' | ⟨segment', rfl, -, -, hx'⟩
              · exact hx hx'
              · exact hinside hx'
            · exact hinside hx'
        · rw [spared_munmap_refused hargs hunmap]
          refine hskip fun x hx => ?_
          rcases hlast x hx with hx | ⟨segment', rfl, -, hundo, -⟩
          · exact hx
          · exact absurd hundo.2.2.1 hargs
      · refine hih m (hskip fun x hx => ?_) h
        rcases hlast x hx with hx | ⟨segment', rfl, hload', -⟩
        · exact hx
        · exact absurd hload' hload

end loop

/-! ## Whole files -/

section files

variable {L : loader guest_memory} {lay : layout} {bits depth : Nat}
  {files : List UInt8 → Option (List UInt8)} {file f : List UInt8} {s s' : load_state guest_memory}
  {auxv_info auxv_info' : load_auxv_info} {is_dl : Bool} {r : Nat}

/-- The addresses that a call may unmap. -/
def undone_of (F : elf_format) (files : List UInt8 → Option (List UInt8)) (file : List UInt8)
    (is_dl : Bool) (x : Nat) : Prop :=
  ∃ f, files file = some f ∧ undone_pages F f (F.getEntry f is_dl).1 is_dl
    (List.range (F.getEntry f is_dl).1.e_phnum) x

/-- An interpreter has no segment that can be undone. -/
theorem undone_of_dl (F : elf_format) (x : Nat) : ¬ undone_of F files file true x := by
  rintro ⟨f, -, i, -, segment, -, -, hundo, -⟩
  exact absurd hundo.1 (by simp)

/-- A call that fails, or one for an interpreter, leaves the types as they were. -/
theorem load_internal_near (hL : OnlyUndoable L)
    (h : load_internal L (spared_space lay bits) files depth file s auxv_info is_dl =
      some (s', auxv_info', r)) (hr : r = 0 ∨ is_dl = true)
    (hord : Ordered s.mem.world.vm.vma_list) (hres : s.mem.world.vm.desc_next_memory = true)
    (hfree : ∀ x, undone_of L.format files file is_dl x →
      ∀ v, typeAt s.mem.world.vm.vma_list x = some v → v = .VMA_UNMAP) :
    Near (undone_of L.format files file is_dl) nowhere s.mem.world s'.mem.world := by
  induction depth generalizing file s auxv_info is_dl s' auxv_info' r with
  | zero => cases h
  | succ depth ih =>
    have hquiet : Quiet fun name s =>
        load_internal L (spared_space lay bits) files depth name s no_auxv_info true := by
      intro name s s' auxv_info r h hord hres S
      have hnear := ih h (.inr rfl) hord hres fun x hx => absurd hx (undone_of_dl _ x)
      exact hnear.mono (fun x hx => absurd hx (undone_of_dl _ x)) (fun _ hx => hx)
    unfold load_internal at h
    cases hfile : files file with
    | none =>
      simp only [hfile, Option.some.injEq, Prod.mk.injEq] at h
      rw [← h.1]
      exact .refl hord hres
    | some f =>
      simp only [hfile] at h
      split_ifs at h with hentry
      · cases h
        exact .refl hord hres
      obtain ⟨⟨l, stopped⟩, hloop, h⟩ := Option.bind_eq_some_iff.mp h
      obtain ⟨pre, post, hrange, hstopped, hnear, hpassed⟩ :=
        load_segments_near hL hquiet hord hres hloop
      have hsub : ∀ x, undone_pages L.format f (L.format.getEntry f is_dl).1 is_dl pre x →
          undone_of L.format files file is_dl x := by
        rintro x ⟨j, hj, hx⟩
        refine ⟨f, hfile, j, ?_, hx⟩
        rw [hrange]
        exact List.mem_append_left post hj
      cases stopped with
      -- the loop has come to its end: this is an interpreter
      | none =>
        obtain ⟨auxv, -, h⟩ := Option.bind_eq_some_iff.mp h
        cases h
        have hdl : is_dl = true := by
          refine hr.resolve_left ?_
          split_ifs with hdl
          · exact hdl
          · exact hentry
        subst hdl
        exact (hnear _).mono (fun _ hS => hS) fun x hx => undone_of_dl _ x (hsub x hx)
      | some i =>
        obtain ⟨m, hunmap, h⟩ := Option.bind_eq_some_iff.mp h
        cases h
        have hpre : pre = List.range i := by
          obtain ⟨rest, rfl⟩ : ∃ rest, post = i :: rest := by
            have hhead := hstopped i rfl
            cases post with
            | nil => cases hhead
            | cons j rest =>
              cases hhead
              exact ⟨rest, rfl⟩
          have hlength : pre.length < (L.format.getEntry f is_dl).1.e_phnum := by
            have := congrArg List.length hrange
            rw [List.length_range, List.length_append, List.length_cons] at this
            omega
          have hat := congrArg (·[pre.length]?) hrange
          simp only [List.getElem?_range hlength, List.getElem?_append_right (Nat.le_refl _),
            Nat.sub_self, List.getElem?_cons_zero, Option.some.injEq] at hat
          have htake := congrArg (List.take pre.length) hrange
          rw [List.take_range, List.take_left, Nat.min_eq_left (Nat.le_of_lt hlength), hat] at htake
          exact htake.symm
        rw [hpre] at hnear hpassed hsub
        exact unmap_segments_near (fun j hj => hpassed j (List.mem_range.mpr hj)) (hnear _)
          (fun x hx => ⟨hsub x hx, hfree x (hsub x hx)⟩) hunmap

theorem field_lt (bytes : List UInt8) (offset n : Nat) : field bytes offset n < 256 ^ n := by
  unfold field
  have hlt := Bytes.ofLE_lt ((bytes.drop offset).take n)
  have hle : ((bytes.drop offset).take n).length ≤ n := List.length_take_le _ _
  exact Nat.lt_of_lt_of_le hlt (Nat.pow_le_pow_right (by decide) hle)

theorem spared_loader64_undoable : OnlyUndoable spared_loader64 := by
  intro s f hdr i segment auxv_info is_dl is_share_object s' auxv_info' status hsegment hord hres hmap
  refine spared_segment64 ?_ hord hres hmap
  have hsegment : elf64.getSegment f hdr i = some segment := hsegment
  unfold elf_format.getSegment at hsegment
  obtain ⟨bytes, -, rfl⟩ := Option.map_eq_some_iff.mp (of_ite_some hsegment).2
  exact field_lt bytes 40 8

theorem spared_loader32_undoable : OnlyUndoable spared_loader32 := by
  intro s f hdr i segment auxv_info is_dl is_share_object s' auxv_info' status _ hord _ hmap
  exact spared_segment32 hord hmap

/-- What can be undone is a segment of the program, at its place. -/
theorem own_of_undone {F : elf_format} (hfile : files file = some f) (x : Nat)
    (hx : undone_of F files file false x) : own_pages F f x := by
  obtain ⟨g, hg, i, hi, segment, hsegment, hload, hundo, hlo, hhi⟩ := hx
  obtain rfl : g = f := Option.some.inj (hg.symm.trans hfile)
  refine ⟨segment, List.mem_map.mpr ⟨segment, ?_, undoable_relocate hundo⟩, ?_⟩
  · rw [List.mem_filter]
    exact ⟨List.mem_filterMap.mpr ⟨i, hi, hsegment⟩, decide_eq_true hload⟩
  · obtain ⟨-, -, ⟨hal, -, hlim⟩, -⟩ := hundo
    unfold in_pages page_start
    unfold PAGE_ALIGN_UP Memory.PAGE_ALIGN_DOWN Memory.add64 Memory.TASK_SIZE Memory.PAGE_SIZE
      PAGE_SIZE at *
    omega

theorem restored_of_near {F : elf_format} (hfile : files file = some f)
    (h : Near (undone_of F files file false) nowhere s.mem.world s'.mem.world) :
    Restored F f s.mem s'.mem where
  types := by
    intro x v hv
    obtain ⟨v', hv', heq⟩ := h.types x v hv
    rw [hv', heq id]
  pages := fun p hp => (h.pages p hp).imp_left (own_of_undone hfile _)

/-- A call that fails in a spared run has undone what it has done. -/
theorem failed_load_restores (hfile : files file = some f) (hord : Ordered s.mem.world.vm.vma_list)
    (hres : s.mem.world.vm.desc_next_memory = true) :
    (ranges_free elf64 f s.mem → spared64 files depth file s auxv_info →
      load64 (guest_space arm64_layout 64) files depth file s auxv_info = some (s', auxv_info', 0) →
        Restored elf64 f s.mem s'.mem) ∧
    (ranges_free elf32 f s.mem → spared32 files depth file s auxv_info →
      load32 (guest_space arm_layout 32) files depth file s auxv_info = some (s', auxv_info', 0) →
        Restored elf32 f s.mem s'.mem) := by
  have hunmapped : ∀ F : elf_format, ranges_free F f s.mem → ∀ x, undone_of F files file false x →
      ∀ v, typeAt s.mem.world.vm.vma_list x = some v → v = .VMA_UNMAP := by
    intro F hfree x hx v hv
    cases v with
    | VMA_UNMAP => rfl
    | VMA_MAP => exact absurd hv (hfree x (own_of_undone hfile x hx))
  constructor
  · intro hfree hspared hload
    obtain ⟨r, hrun⟩ := Option.isSome_iff_exists.mp hspared
    have hsame := load_internal_extends spared_loader64_extends (within_extends _ _ _) files depth file
      s auxv_info false r hrun
    rw [Option.some.inj (hsame.symm.trans hload)] at hrun
    exact restored_of_near hfile (load_internal_near spared_loader64_undoable hrun (.inl rfl) hord hres
      (hunmapped elf64 hfree))
  · intro hfree hspared hload
    obtain ⟨r, hrun⟩ := Option.isSome_iff_exists.mp hspared
    have hsame := load_internal_extends spared_loader32_extends (within_extends _ _ _) files depth file
      s auxv_info false r hrun
    rw [Option.some.inj (hsame.symm.trans hload)] at hrun
    exact restored_of_near hfile (load_internal_near spared_loader32_undoable hrun (.inl rfl) hord hres
      (hunmapped elf32 hfree))

end files

/-! ## A program of two segments -/

section example_files

/-- A host that accepts every call but one. -/
def refusing (n k : Nat) : answer := if k = n then .refuses Memory.ENOMEM else .accepts

/-- The memory before the first call. -/
def fresh_memory (n : Nat) : guest_memory where
  world := (Memory.address_space arm64_layout).init
  byte := fun _ => 0
  writable := fun _ => false
  answers := refusing n
  errno_range := by
    intro k errno h
    unfold refusing at h
    split_ifs at h
    cases h
    decide

def two_segments (e_type : Nat) : List UInt8 :=
  elf64_header e_type 0x400000 64 2 ++ (elf64_segment ⟨PT_LOAD, 5, 0, 0x400000, 176, 176⟩ ++
    elf64_segment ⟨PT_LOAD, 6, 0, 0x401000, 176, 176⟩)

def only_two_segments (e_type : Nat) (_ : List UInt8) : Option (List UInt8) := some (two_segments e_type)

/-- The host refuses the second segment. -/
def load_two_segments (e_type : Nat) : load_result guest_memory :=
  load64 (guest_space arm64_layout 64) (only_two_segments e_type) 1 [0x70]
    ⟨fresh_memory 2, 0, 0⟩ no_auxv_info

theorem fresh_free (n : Nat) {x : Nat} (hlo : 0x400000 ≤ x) (hhi : x < 0x7000000000) :
    typeAt (fresh_memory n).world.vm.vma_list x = some .VMA_UNMAP := by
  show typeAt Memory.arm64_initial_list x = _
  unfold typeAt Intervals.lookup Memory.arm64_initial_list
  rw [Intervals.owner_cons, if_pos ⟨hlo, hhi⟩]
  rfl

/-- The segments of either program are at free addresses. -/
theorem two_segments_free (e_type : Nat)
    (h : ∀ segment ∈ load_segments_of elf64 (two_segments e_type),
      0x400000 ≤ page_start segment.p_vaddr ∧
      page_start (segment.p_vaddr + segment.p_memsz + (PAGE_SIZE - 1)) ≤ 0x7000000000) :
    ranges_free elf64 (two_segments e_type) (fresh_memory 2) := by
  rintro x ⟨segment, hmem, hlo, hhi⟩
  obtain ⟨hstart, hend⟩ := h segment hmem
  rw [fresh_free 2 (by omega) (by omega)]
  simp

/-- A program that is not moved is unmapped again. -/
theorem two_segments_restored : ∃ s' auxv_info', load_two_segments ET_EXEC = some (s', auxv_info', 0) ∧
    Restored elf64 (two_segments ET_EXEC) (fresh_memory 2) s'.mem := by
  have hresult : (load_two_segments ET_EXEC).map (·.2.2) = some 0 := by decide +kernel
  obtain ⟨⟨s', auxv_info', r⟩, hload, hr⟩ := Option.map_eq_some_iff.mp hresult
  obtain rfl : r = 0 := hr
  have hfile : only_two_segments ET_EXEC [0x70] = some (two_segments ET_EXEC) := rfl
  have hord : Ordered (fresh_memory 2).world.vm.vma_list := (Memory.init_sealed .arm64).list_sealed.ordered
  have hfree : ranges_free elf64 (two_segments ET_EXEC) (fresh_memory 2) :=
    two_segments_free _ (by decide +kernel)
  have hspared : spared64 (only_two_segments ET_EXEC) 1 [0x70] ⟨fresh_memory 2, 0, 0⟩ no_auxv_info := by
    unfold spared64
    decide +kernel
  exact ⟨s', auxv_info', hload, (failed_load_restores hfile hord rfl).1 hfree hspared hload⟩

/-- The first segment of one that is moved stays mapped. -/
theorem moved_segment_left : ∃ s' auxv_info', load_two_segments ET_DYN = some (s', auxv_info', 0) ∧
    ranges_free elf64 (two_segments ET_DYN) (fresh_memory 2) ∧
    ¬ Restored elf64 (two_segments ET_DYN) (fresh_memory 2) s'.mem := by
  have hresult : (load_two_segments ET_DYN).map
      (fun r => (r.2.2, typeAt r.1.mem.world.vm.vma_list 0x20400000)) = some (0, some .VMA_MAP) := by
    decide +kernel
  obtain ⟨⟨s', auxv_info', r⟩, hload, hr⟩ := Option.map_eq_some_iff.mp hresult
  obtain ⟨rfl, htype⟩ : r = 0 ∧ typeAt s'.mem.world.vm.vma_list 0x20400000 = some .VMA_MAP :=
    Prod.mk.inj hr
  refine ⟨s', auxv_info', hload, two_segments_free _ (by decide +kernel), fun hrestored => ?_⟩
  have hbefore : typeAt (fresh_memory 2).world.vm.vma_list 0x20400000 = some .VMA_UNMAP :=
    fresh_free 2 (by decide) (by decide)
  have hafter := hrestored.types _ _ hbefore
  rw [htype] at hafter
  cases hafter

end example_files

end Umeq.Loader
