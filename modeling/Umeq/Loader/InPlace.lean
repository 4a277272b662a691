import Umeq.Loader.Undo

/-! # Every segment is in place

    After a load, the file part of each segment of the program and of its interpreters has the
    bytes of its file, and the rest of it is mapped and 0; the break is the end of the
    last segment of the program.

    * `in_place`: what is to hold of one segment.
    * `mapped_segments`: all that a load maps, in its order.
    * `apart`: no two of these share a page.
    * `granted_loader64`: runs of `load64` in which the zeros are granted too once a file part is.
-/

namespace Umeq.Loader

open Memory (layout answer Ordered Orderly BoundsIn range_args PAGE_ALIGN_UP target internal_mmap
  arm64_layout arm_layout)

/-! ## What is to hold -/

/-- The bytes of a segment at its place. -/
structure in_place (f : List UInt8) (segment : Elf_Phdr) (m : guest_memory) : Prop where
  file : ∀ i, i < segment.p_filesz →
    m.world.host.mapped ((segment.p_vaddr + i) / PAGE_SIZE) ∧
      m.byte (segment.p_vaddr + i) = f.getD (segment.p_offset + i) 0
  zeros : ∀ i, segment.p_filesz ≤ i → i < segment.p_memsz →
    m.world.host.mapped ((segment.p_vaddr + i) / PAGE_SIZE) ∧ m.byte (segment.p_vaddr + i) = 0

section purpose

variable (F : elf_format) (files : List UInt8 → Option (List UInt8))

/-- What one header maps. -/
def header_segments (dl_segments : List UInt8 → List (List UInt8 × Elf_Phdr)) (f : List UInt8)
    (hdr : Elf_Ehdr) (is_dl : Bool) (i : Nat) : List (List UInt8 × Elf_Phdr) :=
  match F.getSegment f hdr i with
  | none => []
  | some segment =>
    if segment.p_type = PT_LOAD then [(f, relocate F segment is_dl (hdr.e_type = ET_DYN))]
    else if segment.p_type = PT_INTERP then ((dl_copy_dl_name f segment).map dl_segments).getD []
    else []

/-- What a file and its interpreters map: each segment at the address that it is moved to, with the
    file that it is in. -/
def mapped_segments : Nat → List UInt8 → Bool → List (List UInt8 × Elf_Phdr)
  | 0, _, _ => []
  | depth + 1, file, is_dl =>
    match files file with
    | none => []
    | some f =>
      let (hdr, _) := F.getEntry f is_dl
      (List.range hdr.e_phnum).flatMap
        (header_segments F (fun name => mapped_segments depth name true) f hdr is_dl)

/-- The page after a segment. -/
def end_page (segment : Elf_Phdr) : Nat :=
  page_start (segment.p_vaddr + segment.p_memsz + (PAGE_SIZE - 1))

/-- The two segments have no page in common. -/
def disjoint_pages (a b : Elf_Phdr) : Prop :=
  end_page a ≤ page_start b.p_vaddr ∨ end_page b ≤ page_start a.p_vaddr

instance (a b : Elf_Phdr) : Decidable (disjoint_pages a b) := inferInstanceAs (Decidable (_ ∨ _))

/-- The sizes of a segment, and where it begins in its page. -/
def well_formed (segment : Elf_Phdr) : Prop :=
  segment.p_filesz ≤ segment.p_memsz ∧ segment.p_offset % PAGE_SIZE = segment.p_vaddr % PAGE_SIZE

instance (segment : Elf_Phdr) : Decidable (well_formed segment) := inferInstanceAs (Decidable (_ ∧ _))

/-- The segments are in the address space, and no two of them share a page. -/
def apart (segments : List (List UInt8 × Elf_Phdr)) : Prop :=
  (∀ p ∈ segments, p.2.p_vaddr + p.2.p_memsz ≤ 2 ^ F.bits) ∧
    segments.Pairwise fun a b => disjoint_pages a.2 b.2

instance (segments : List (List UInt8 × Elf_Phdr)) : Decidable (apart F segments) :=
  inferInstanceAs (Decidable (_ ∧ _))

/-- What a load is to leave. -/
structure Loaded (depth : Nat) (file f : List UInt8) (s : load_state guest_memory) : Prop where
  segments : ∀ p ∈ mapped_segments F files depth file false, in_place p.1 p.2 s.mem
  startbrk : ∀ segment, (load_segments_of F f).getLast? = some segment →
    s.startbrk = F.add segment.p_vaddr segment.p_memsz

end purpose

/-! ## The runs in which the zeros are granted -/

/-- The zeros of a segment are granted once its file part is. -/
def zeros_granted (F : elf_format) (m : guest_memory) (f : List UInt8) (segment : Elf_Phdr)
    (is_dl is_share_object : Bool) : Bool :=
  let moved := relocate F segment is_dl is_share_object
  moved.p_filesz ≠ 0 ∧ (file_request F moved f).granted (m.answers 0) ∧ needs_bss F moved →
    (bss_request F moved).granted (m.answers 2)

def granted_loader64 : loader guest_memory :=
  (loader64 (guest_space arm64_layout 64)).within (zeros_granted elf64)

/-- The run of `load64` is such a run. -/
def granted64 (files : List UInt8 → Option (List UInt8)) (depth : Nat) (file : List UInt8)
    (s : load_state guest_memory) (auxv_info : load_auxv_info) : Prop :=
  (load_internal granted_loader64 (guest_space arm64_layout 64) files depth file s auxv_info
    false).isSome = true

/-! ## The list of the emulator -/

/-- The descriptors are in order, and end in the address space. -/
structure Low (bits : Nat) (l : List Memory.vma_desc) : Prop where
  orderly : Orderly l
  limit : BoundsIn (· ≤ 2 ^ bits) (· ≤ 2 ^ bits) l

section low

variable {bits : Nat} {T : target} {w w' : Memory.world} {addr length : Nat} {prot_exec fixed : Bool}
  {a : answer} {res : Except Nat Nat}

theorem Low.made {q : Memory.request} {vm : Memory.mmap_state} (h : Low bits q.vm.vma_list)
    (hmade : q.made = some vm) : Low bits vm.vma_list := by
  refine ⟨h.orderly.made hmade, ?_⟩
  obtain ⟨u, hu, hlist, -⟩ := Memory.insert_spec hmade
  rw [hlist]
  exact Memory.bounds_insert h.orderly.ordered h.limit hu

theorem Low.mmap {L : layout} (h : Low bits w.vm.vma_list)
    (hcall : internal_mmap L w addr length prot_exec fixed a = some (w', res)) :
    Low bits w'.vm.vma_list := by
  have htrace := Memory.mmap_trace L w addr length prot_exec fixed a
  rw [hcall] at htrace
  exact htrace.keeps (fun _ _ hq _ hmade => hq.made hmade) h

theorem Low.refill {L : layout} (h : Low bits w.vm.vma_list)
    (hcall : Memory.allocate_more_desc_memory_if_needed L w a = some w') : Low bits w'.vm.vma_list := by
  have htrace := Memory.refill_trace L w a
  rw [hcall] at htrace
  exact htrace.keeps (fun _ _ hq _ hmade => hq.made hmade) h

/-- Every state that the calls of the guest lead to. -/
theorem low_of_reach (hinit : Low bits T.layout.vma_init)
    (h : (Memory.address_space T.layout).Reach (fun _ _ => True) w) : Low bits w.vm.vma_list := by
  refine @Runs.System.Reach.invariant _ _ _ _ (fun w => Low bits w.vm.vma_list) w h ?_ ?_
  · exact hinit
  · intro w c w' hw _ hexec
    have htrace := Memory.call_trace T.layout w c
    rw [show c.exec T.layout w = some w' from hexec] at htrace
    exact htrace.keeps (fun _ _ hq _ hmade => hq.made hmade) hw

theorem init_low64 : Low 64 arm64_layout.vma_init where
  orderly := Memory.Brk.orderly_of_sealed (Memory.init_sealed .arm64)
  limit := by
    intro d hd
    simp only [arm64_layout, Memory.arm64_initial_list, List.mem_cons, List.not_mem_nil, or_false] at hd
    rcases hd with rfl | rfl <;> decide

theorem init_low32 : Low 32 arm_layout.vma_init where
  orderly := Memory.Brk.orderly_of_sealed (Memory.init_sealed .arm)
  limit := by
    intro d hd
    simp only [arm_layout, List.mem_cons, List.not_mem_nil, or_false] at hd
    rcases hd with rfl | rfl | rfl <;> decide

theorem mmap_syscall_cases {h h' : Memory.host}
    (hs : Memory.mmap_syscall h a addr length = (h', res)) :
    (∃ errno, res = .error errno ∧ h' = h ∧ (a = .refuses errno ∨ errno = Memory.EINVAL)) ∨
    (res = .ok addr ∧ granted a addr length ∧
      h' = h.fill addr (addr + PAGE_ALIGN_UP length) (some .other)) := by
  unfold Memory.mmap_syscall at hs
  by_cases hg : granted a addr length
  · rw [range_granted hg] at hs
    cases hs
    exact .inr ⟨rfl, hg, rfl⟩
  · obtain ⟨errno, hsys, herrno⟩ := range_refused h (some .other) addr hg
    rw [hsys] at hs
    cases hs
    exact .inl ⟨errno, rfl, rfl, herrno⟩

/-- What a call does to the host: nothing, or it maps the address that it is given or one that the
    search has found. -/
theorem internal_mmap_cases {L : layout}
    (hcall : internal_mmap L w addr length prot_exec fixed a = some (w', res)) :
    (∃ errno, res = .error errno ∧ w'.host = w.host ∧
      (a = .refuses errno ∨ errno = Memory.EINVAL ∨ errno = Memory.ENOMEM)) ∨
    ∃ x, res = .ok x ∧ granted a x length ∧
      w'.host = w.host.fill x (x + PAGE_ALIGN_UP length) (some .other) ∧
      (x = addr ∨ ¬ (addr ≠ 0 ∧ fixed = true) ∧
        ∃ vm, Memory.mmap_search L w.vm addr length = some (vm, some x)) := by
  unfold internal_mmap at hcall
  split_ifs at hcall with hfixed
  · rcases hs : Memory.mmap_syscall w.host a addr length with ⟨host, errno | x⟩ <;>
      simp only [hs] at hcall
    · cases hcall
      rcases mmap_syscall_cases hs with ⟨e, he, rfl, herrno⟩ | ⟨hres, -⟩
      · cases he
        exact .inl ⟨errno, rfl, rfl, herrno.imp_right .inl⟩
      · cases hres
    · obtain ⟨vm, -, hcall⟩ := Option.bind_eq_some_iff.mp hcall
      cases hcall
      rcases mmap_syscall_cases hs with ⟨e, he, -⟩ | ⟨hres, hg, rfl⟩
      · cases he
      · cases hres
        exact .inr ⟨addr, rfl, hg, rfl, .inl rfl⟩
  · obtain ⟨⟨vm, start⟩, hsearch, hcall⟩ := Option.bind_eq_some_iff.mp hcall
    cases start with
    | none =>
      cases hcall
      exact .inl ⟨Memory.ENOMEM, rfl, rfl, .inr (.inr rfl)⟩
    | some start =>
      rcases hs : Memory.mmap_syscall w.host a start length with ⟨host, errno | x⟩ <;>
        simp only [hs] at hcall
      -- the area that was found is given back
      · obtain ⟨vm', -, hcall⟩ := Option.bind_eq_some_iff.mp hcall
        cases hcall
        rcases mmap_syscall_cases hs with ⟨e, he, rfl, herrno⟩ | ⟨hres, -⟩
        · cases he
          exact .inl ⟨errno, rfl, rfl, herrno.imp_right .inl⟩
        · cases hres
      · cases hcall
        rcases mmap_syscall_cases hs with ⟨e, he, -⟩ | ⟨hres, hg, rfl⟩
        · cases he
        · cases hres
          exact .inr ⟨start, rfl, hg, rfl, .inr ⟨hfixed, vm, hsearch⟩⟩

/-- Nothing is unmapped. -/
theorem internal_mmap_mapped {L : layout}
    (hcall : internal_mmap L w addr length prot_exec fixed a = some (w', res)) (p : Nat)
    (hp : w.host.mapped p) : w'.host.mapped p := by
  rcases internal_mmap_cases hcall with ⟨errno, -, hhost, -⟩ | ⟨x, -, -, hhost, -⟩
  · exact hhost ▸ hp
  · rw [hhost]
    exact mapped_fill_some w.host _ _ p hp

theorem refill_mapped {L : layout} (hcall : Memory.allocate_more_desc_memory_if_needed L w a = some w')
    (p : Nat) (hp : w.host.mapped p) : w'.host.mapped p := by
  unfold Memory.allocate_more_desc_memory_if_needed at hcall
  split_ifs at hcall
  · cases hcall
    exact hp
  · obtain ⟨⟨v, errno | x⟩, hmap, hcall⟩ := Option.bind_eq_some_iff.mp hcall
    · cases hcall
    · cases hcall
      exact internal_mmap_mapped hmap p hp

/-- Where a call that is carried out has mapped. Without an address it is a free range, and
    these are in the address space. -/
theorem internal_mmap_carried {x : Nat} (h : Low bits w.vm.vma_list)
    (hcall : internal_mmap T.layout w addr length prot_exec true a = some (w', .ok x)) :
    granted a x length ∧ (x = addr ∨ addr = 0 ∧ x < 2 ^ bits) ∧
      w'.host = w.host.fill x (x + PAGE_ALIGN_UP length) (some .other) := by
  rcases internal_mmap_cases hcall with ⟨errno, hres, -⟩ | ⟨y, hres, hg, hhost, hplace⟩
  · cases hres
  · cases hres
    refine ⟨hg, hplace.imp_right ?_, hhost⟩
    rintro ⟨hfixed, vm, hsearch⟩
    have h0 : addr = 0 := by simpa using hfixed
    obtain ⟨hstart, -⟩ := Memory.mmap_search_result hsearch
    obtain ⟨q, hq, rfl⟩ := Option.map_eq_some_iff.mp hstart.symm
    have hpos := range_pos hg.2
    obtain ⟨-, -, -, hlim⟩ := hg
    unfold Memory.TASK_SIZE at hlim
    have hfills := Memory.search_fills h.orderly (by unfold Memory.PAGE_SIZE; omega) hq
    obtain ⟨d, hd, -, -, hle⟩ := hfills.range.desc
    have hend : d.end_addr ≤ 2 ^ bits := (h.limit d hd).2
    exact ⟨h0, by omega⟩

end low

/-! ## One request -/

/-- What changes no byte but those at `P`, and unmaps nothing. -/
structure Frame (bits : Nat) (P : Nat → Prop) (m m' : guest_memory) : Prop where
  kept : ∀ x, ¬ P x → m'.byte x = m.byte x
  mapped : ∀ p, m.world.host.mapped p → m'.world.host.mapped p
  low : Low bits m'.world.vm.vma_list

section requests

variable {bits : Nat} {P Q : Nat → Prop} {T : target} {m m' m'' : guest_memory} {q : mmap_request}

theorem Frame.refl (h : Low bits m.world.vm.vma_list) : Frame bits P m m :=
  ⟨fun _ _ => rfl, fun _ hp => hp, h⟩

theorem Frame.trans (h : Frame bits P m m') (h' : Frame bits Q m' m'') :
    Frame bits (fun x => P x ∨ Q x) m m'' where
  kept := by
    intro x hx
    rw [h'.kept x fun hQ => hx (.inr hQ), h.kept x fun hP => hx (.inl hP)]
  mapped := fun p hp => h'.mapped p (h.mapped p hp)
  low := h'.low

theorem Frame.mono (h : Frame bits P m m') (hPQ : ∀ x, P x → Q x) : Frame bits Q m m' :=
  ⟨fun x hx => h.kept x fun hP => hx (hPQ x hP), h.mapped, h.low⟩

/-- A request that is answered with its own address has been carried out there. -/
theorem mmap_guest_placed (hbits : bits = 32 ∨ bits = 64) (hlow : Low bits m.world.vm.vma_list)
    (hal : q.addr % PAGE_SIZE = 0) (h : mmap_guest T.layout bits m q = some (m', q.addr)) :
    q.granted (m.answers 0) ∧ Frame bits q.inside m m' ∧
      ∀ x, q.inside x → m'.world.host.mapped (x / PAGE_SIZE) ∧
        m'.byte x = source_byte q.source (x - q.addr) := by
  obtain ⟨⟨w, res⟩, hmap, h⟩ := Option.bind_eq_some_iff.mp h
  obtain ⟨w', hrefill, h⟩ := Option.bind_eq_some_iff.mp h
  have hlow' := (hlow.mmap hmap).refill hrefill
  cases res with
  | error errno =>
    -- the number of an error is no address of a page
    exfalso
    have haddr : guest_ptr bits (.error errno) = q.addr := (Prod.mk.inj (Option.some.inj h)).2
    have hrange : 0 < errno ∧ errno < PAGE_SIZE := by
      rcases internal_mmap_cases hmap with ⟨e, he, -, ha | rfl | rfl⟩ | ⟨x, hx, -⟩
      · cases he
        exact m.errno_range 0 errno ha
      · cases he
        decide
      · cases he
        decide
      · cases hx
    unfold guest_ptr PAGE_SIZE at *
    rcases hbits with rfl | rfl <;> dsimp only at haddr <;> omega
  | ok x =>
    obtain ⟨hm, haddr⟩ := Prod.mk.inj (Option.some.inj h)
    obtain ⟨hg, hplace, hhost⟩ := internal_mmap_carried hlow hmap
    have hx : x = q.addr := by
      rcases hplace with hx | ⟨-, hlt⟩
      · exact hx
      · have haddr : x % 2 ^ bits = q.addr := haddr
        rwa [Nat.mod_eq_of_lt hlt] at haddr
    subst hx hm
    have hmapped : ∀ p, w.host.mapped p → w'.host.mapped p := refill_mapped hrefill
    refine ⟨hg, ⟨?_, ?_, hlow'⟩, ?_⟩
    · intro x hx
      exact if_neg hx
    · intro p hp
      exact hmapped p (internal_mmap_mapped hmap p hp)
    · intro x hx
      refine ⟨hmapped _ ?_, if_pos hx⟩
      rw [hhost, Memory.mapped_fill]
      unfold Memory.setRange
      have hstart := hg.2.1
      have hup : PAGE_ALIGN_UP q.length % Memory.PAGE_SIZE = 0 := Memory.aligned_up _
      obtain ⟨hlo, hhi⟩ := hx
      rw [if_pos]
      · rfl
      · unfold Memory.PAGE_SIZE PAGE_SIZE at *
        omega

/-- Zeros that are written. -/
theorem clear_bytes_placed {a b : Nat} (hlow : Low bits m.world.vm.vma_list)
    (h : clear_bytes m a b = some m') :
    Frame bits (fun x => a ≤ x ∧ x < b) m m' ∧
      ∀ x, a ≤ x → x < b → m'.world.host.mapped (x / PAGE_SIZE) ∧ m'.byte x = 0 := by
  obtain ⟨hwrite, hm⟩ := of_ite_some h
  cases hm
  refine ⟨⟨?_, fun _ hp => hp, hlow⟩, ?_⟩
  · intro x hx
    exact if_neg hx
  · intro x hlo hhi
    refine ⟨?_, if_pos ⟨hlo, hhi⟩⟩
    have hx := (hwrite (x - a) (by omega)).1
    rw [Nat.add_sub_cancel' hlo] at hx
    exact hx

end requests

/-! ## One segment -/

section parts

variable {F : elf_format} {T : target} {m m' : guest_memory} {segment : Elf_Phdr} {f : List UInt8}
  {mapped : Bool}

theorem up_to {a n : Nat} (ha : a % PAGE_SIZE = 0) (hn : n ≤ Memory.TASK_SIZE) :
    a + PAGE_ALIGN_UP n = page_start (a + n + (PAGE_SIZE - 1)) := by
  unfold page_start PAGE_ALIGN_UP Memory.PAGE_ALIGN_DOWN Memory.add64 Memory.TASK_SIZE Memory.PAGE_SIZE
    PAGE_SIZE at *
  omega

theorem page_start_mono {a b : Nat} (h : a ≤ b) : page_start a ≤ page_start b :=
  Nat.mul_le_mul_right _ (Nat.div_le_div_right h)

/-- The file part that is asked for ends with the one of the segment. -/
theorem file_end (hle : segment.p_filesz ≤ segment.p_memsz)
    (htop : segment.p_vaddr + segment.p_memsz ≤ 2 ^ F.bits)
    (hpos : 0 < F.add segment.p_filesz (page_offset segment.p_vaddr)) :
    page_start segment.p_vaddr + F.add segment.p_filesz (page_offset segment.p_vaddr) =
      segment.p_vaddr + segment.p_filesz := by
  have hsplit : page_start segment.p_vaddr + page_offset segment.p_vaddr = segment.p_vaddr := by
    unfold page_start page_offset PAGE_SIZE
    omega
  unfold elf_format.add at hpos ⊢
  have hbound : segment.p_filesz + page_offset segment.p_vaddr ≤ 2 ^ F.bits := by omega
  rcases Nat.lt_or_eq_of_le hbound with hlt | heq
  · rw [Nat.mod_eq_of_lt hlt]
    omega
  -- a part as long as the whole space has the length 0
  · rw [heq, Nat.mod_self] at hpos
    exact absurd hpos (Nat.lt_irrefl 0)

theorem map_file_placed (hbits : F.bits = 32 ∨ F.bits = 64) (hlow : Low F.bits m.world.vm.vma_list)
    (hwf : well_formed segment) (htop : segment.p_vaddr + segment.p_memsz ≤ 2 ^ F.bits)
    (h : map_file F (guest_space T.layout F.bits) m segment f = some (m', true)) :
    (file_request F segment f).granted (m.answers 0) ∧ Frame F.bits (in_pages segment) m m' ∧
      ∀ i, i < segment.p_filesz → m'.world.host.mapped ((segment.p_vaddr + i) / PAGE_SIZE) ∧
        m'.byte (segment.p_vaddr + i) = f.getD (segment.p_offset + i) 0 := by
  obtain ⟨hle, hcongruent⟩ := hwf
  obtain ⟨⟨m₁, r⟩, hmap, h⟩ := Option.bind_eq_some_iff.mp h
  obtain ⟨rfl, hr⟩ := Prod.mk.inj (Option.some.inj h)
  obtain rfl : r = page_start segment.p_vaddr := of_decide_eq_true hr
  obtain ⟨hg, hframe, hbytes⟩ :=
    mmap_guest_placed (q := file_request F segment f) hbits hlow (page_start_aligned _) hmap
  obtain ⟨-, hpos, hlim⟩ := hg.2
  have hinside : ∀ x, (file_request F segment f).inside x ↔
      page_start segment.p_vaddr ≤ x ∧
        x < page_start (segment.p_vaddr + segment.p_filesz + (PAGE_SIZE - 1)) := by
    intro x
    have hup := up_to (page_start_aligned segment.p_vaddr) (Nat.le_trans (Nat.le_add_left _ _) hlim)
    rw [show page_start segment.p_vaddr + (file_request F segment f).length =
      segment.p_vaddr + segment.p_filesz from file_end hle htop hpos] at hup
    unfold mmap_request.inside
    rw [show (file_request F segment f).addr = page_start segment.p_vaddr from rfl, hup]
  refine ⟨hg, ?_, ?_⟩
  · refine hframe.mono fun x hx => ?_
    obtain ⟨hlo, hhi⟩ := (hinside x).mp hx
    exact ⟨hlo, Nat.lt_of_lt_of_le hhi (page_start_mono (by omega))⟩
  · intro i hi
    have hin : (file_request F segment f).inside (segment.p_vaddr + i) := by
      rw [hinside]
      unfold page_start PAGE_SIZE
      omega
    obtain ⟨hmapped, hbyte⟩ := hbytes _ hin
    refine ⟨hmapped, ?_⟩
    rw [hbyte]
    have hoffset : page_start segment.p_offset + (segment.p_vaddr + i - page_start segment.p_vaddr) =
        segment.p_offset + i := by
      unfold page_start
      unfold PAGE_SIZE at hcongruent ⊢
      omega
    rw [← hoffset]
    rfl

/-- The part of a segment that is not in its file, up to the end of the last page. -/
def in_zeros (segment : Elf_Phdr) (x : Nat) : Prop :=
  segment.p_vaddr + segment.p_filesz ≤ x ∧ x < end_page segment

/-- That part is mapped and 0. -/
def Zeroed (F : elf_format) (segment : Elf_Phdr) (m m' : guest_memory) : Prop :=
  Frame F.bits (in_zeros segment) m m' ∧
    ∀ i, segment.p_filesz ≤ i → i < segment.p_memsz →
      m'.world.host.mapped ((segment.p_vaddr + i) / PAGE_SIZE) ∧ m'.byte (segment.p_vaddr + i) = 0

theorem zeroAddr_eq (hlt : segment.p_filesz < segment.p_memsz)
    (htop : segment.p_vaddr + segment.p_memsz ≤ 2 ^ F.bits) :
    zeroAddr F segment = segment.p_vaddr + segment.p_filesz := Nat.mod_eq_of_lt (by omega)

theorem zeroAddrSize_eq (hle : segment.p_filesz ≤ segment.p_memsz) (hm : segment.p_memsz < 2 ^ F.bits) :
    zeroAddrSize F segment = segment.p_memsz - segment.p_filesz := by
  unfold zeroAddrSize elf_format.sub
  rw [show segment.p_memsz + 2 ^ F.bits - segment.p_filesz =
    segment.p_memsz - segment.p_filesz + 2 ^ F.bits by omega, Nat.add_mod_right,
    Nat.mod_eq_of_lt (by omega)]

theorem clear_bss_placed (hlow : Low F.bits m.world.vm.vma_list)
    (hlt : segment.p_filesz < segment.p_memsz) (hm : segment.p_memsz < 2 ^ F.bits)
    (htop : segment.p_vaddr + segment.p_memsz ≤ 2 ^ F.bits)
    (h : clear_bss F (guest_space T.layout F.bits) m segment = some m') : Zeroed F segment m m' := by
  obtain ⟨m₁, hclear, h⟩ := Option.bind_eq_some_iff.mp h
  have hend : zeroAddr F segment + zeroAddrSize F segment = segment.p_vaddr + segment.p_memsz := by
    rw [zeroAddr_eq hlt htop, zeroAddrSize_eq (Nat.le_of_lt hlt) hm]
    omega
  rw [hend] at hclear h
  rw [zeroAddr_eq hlt htop] at hclear
  obtain ⟨hframe, hzeros⟩ := clear_bytes_placed hlow hclear
  have hlast : ∀ x, x < segment.p_vaddr + segment.p_memsz → x < end_page segment := by
    intro x hx
    unfold end_page page_start PAGE_SIZE
    omega
  have hzeros : ∀ i, segment.p_filesz ≤ i → i < segment.p_memsz →
      m₁.world.host.mapped ((segment.p_vaddr + i) / PAGE_SIZE) ∧ m₁.byte (segment.p_vaddr + i) = 0 :=
    fun i hlo hhi => hzeros _ (Nat.add_le_add_left hlo _) (Nat.add_lt_add_left hhi _)
  split_ifs at h
  · obtain ⟨hframe', -⟩ := clear_bytes_placed hframe.low h
    refine ⟨(hframe.trans hframe').mono ?_, ?_⟩
    · intro x hx
      rcases hx with ⟨hlo, hhi⟩ | ⟨hlo, hhi⟩
      · exact ⟨hlo, hlast x hhi⟩
      · exact ⟨by omega, hhi⟩
    · intro i hlo hhi
      obtain ⟨hmapped, hbyte⟩ := hzeros i hlo hhi
      refine ⟨hframe'.mapped _ hmapped, ?_⟩
      rw [hframe'.kept _ fun hx => by omega, hbyte]
  · cases h
    exact ⟨hframe.mono fun x hx => ⟨hx.1, hlast x hx.2⟩, hzeros⟩

theorem map_bss_placed (hbits : F.bits = 32 ∨ F.bits = 64) (hlow : Low F.bits m.world.vm.vma_list)
    (hlt : segment.p_filesz < segment.p_memsz) (hm : segment.p_memsz < 2 ^ F.bits)
    (htop : segment.p_vaddr + segment.p_memsz ≤ 2 ^ F.bits)
    (h : map_bss F (guest_space T.layout F.bits) m segment = some (m', true)) :
    Zeroed F segment m m' := by
  unfold map_bss at h
  split_ifs at h with hneeds
  · obtain ⟨⟨m₁, r⟩, hmap, h⟩ := Option.bind_eq_some_iff.mp h
    dsimp only at h
    split_ifs at h with hr
    · subst hr
      obtain ⟨m₂, hclear, h⟩ := Option.bind_eq_some_iff.mp h
      cases h
      obtain ⟨hg, hframe, -⟩ :=
        mmap_guest_placed (q := bss_request F segment) hbits hlow (page_start_aligned _) hmap
      obtain ⟨hge, hend⟩ := bss_end hbits (Nat.le_of_lt hlt) htop ⟨zeroAddrSize_ne hlt hm, hneeds⟩
      obtain ⟨hframe', hzeros⟩ := clear_bss_placed hframe.low hlt hm htop hclear
      refine ⟨(hframe.trans hframe').mono ?_, hzeros⟩
      intro x hx
      rcases hx with ⟨hlo, hhi⟩ | hx
      · have hup := up_to (page_start_aligned (F.add (zeroAddr F segment) (PAGE_SIZE - 1)))
          (Nat.le_trans (Nat.le_add_left _ _) hg.2.2.2)
        refine ⟨Nat.le_trans hge hlo, ?_⟩
        unfold end_page
        rw [← hend]
        exact hup ▸ hhi
      · exact hx
    · cases h
  · obtain ⟨m₁, hclear, h⟩ := Option.bind_eq_some_iff.mp h
    cases h
    exact clear_bss_placed hlow hlt hm htop hclear

theorem mmap_guest_answers {L : layout} {bits : Nat} {q : mmap_request} {r : Nat}
    (h : mmap_guest L bits m q = some (m', r)) : m'.answers = fun n => m.answers (n + 2) := by
  obtain ⟨⟨w, res⟩, -, h⟩ := Option.bind_eq_some_iff.mp h
  obtain ⟨w', -, h⟩ := Option.bind_eq_some_iff.mp h
  cases res <;> cases h <;> rfl

/-- Zeros that are granted are mapped where they should be. -/
theorem map_bss_carried (hg : needs_bss F segment →
      F.next_page (zeroAddr F segment) ≠ 0 ∧ (bss_request F segment).granted (m.answers 0))
    (hsize : zeroAddrSize F segment ≠ 0)
    (h : map_bss F (guest_space T.layout F.bits) m segment = some (m', mapped)) : mapped = true := by
  unfold map_bss at h
  split_ifs at h with hneeds
  · obtain ⟨⟨m₁, r⟩, hmap, h⟩ := Option.bind_eq_some_iff.mp h
    obtain ⟨⟨w, res⟩, hcall, hmap⟩ := Option.bind_eq_some_iff.mp hmap
    obtain ⟨w', -, hmap⟩ := Option.bind_eq_some_iff.mp hmap
    obtain ⟨h0, hg⟩ := hg ⟨hsize, hneeds⟩
    obtain ⟨rfl, -⟩ := internal_mmap_granted h0 hg hcall
    cases hmap
    have hr : guest_ptr F.bits (.ok (F.next_page (zeroAddr F segment))) =
        F.next_page (zeroAddr F segment) := page_start_mod (Nat.mod_lt _ (Nat.two_pow_pos _))
    dsimp only at h
    rw [if_pos hr] at h
    obtain ⟨m₂, -, h⟩ := Option.bind_eq_some_iff.mp h
    cases h
    rfl
  · obtain ⟨m₁, -, h⟩ := Option.bind_eq_some_iff.mp h
    cases h
    rfl

end parts

section segments

variable {F : elf_format} {s s' : load_state guest_memory} {segment : Elf_Phdr} {f : List UInt8}
  {auxv_info auxv_info' : load_auxv_info} {is_dl is_share_object : Bool}

/-- What mapping a segment that is moved comes to. -/
structure Placed (F : elf_format) (f : List UInt8) (segment : Elf_Phdr) (is_dl : Bool)
    (s s' : load_state guest_memory) : Prop where
  frame : Frame F.bits (in_pages segment) s.mem s'.mem
  placed : in_place f segment s'.mem
  startbrk : s'.startbrk = next_startbrk F s segment is_dl

/-- The zeros leave the file part as it was. -/
theorem in_place_of_parts {m m₁ m₂ : guest_memory}
    (hframe : Frame F.bits (in_pages segment) m m₁)
    (hfile : ∀ i, i < segment.p_filesz → m₁.world.host.mapped ((segment.p_vaddr + i) / PAGE_SIZE) ∧
      m₁.byte (segment.p_vaddr + i) = f.getD (segment.p_offset + i) 0)
    (hzeros : Zeroed F segment m₁ m₂) :
    Frame F.bits (in_pages segment) m m₂ ∧ in_place f segment m₂ := by
  obtain ⟨hframe', hzeros⟩ := hzeros
  refine ⟨(hframe.trans hframe').mono ?_, ⟨?_, hzeros⟩⟩
  · rintro x (hx | ⟨hlo, hhi⟩)
    · exact hx
    · refine ⟨Nat.le_trans ?_ hlo, hhi⟩
      exact Nat.le_trans (Nat.div_mul_le_self _ _) (Nat.le_add_right _ _)
  · intro i hi
    obtain ⟨hmapped, hbyte⟩ := hfile i hi
    refine ⟨hframe'.mapped _ hmapped, ?_⟩
    rw [hframe'.kept _ fun hx => absurd hx.1 (by omega), hbyte]

theorem mapSegment64_placed (hlow : Low 64 s.mem.world.vm.vma_list)
    (hwf : well_formed (relocate elf64 segment is_dl is_share_object))
    (hm : (relocate elf64 segment is_dl is_share_object).p_memsz < 2 ^ 64)
    (htop : (relocate elf64 segment is_dl is_share_object).p_vaddr +
      (relocate elf64 segment is_dl is_share_object).p_memsz ≤ 2 ^ 64)
    (hgranted : zeros_granted elf64 s.mem f segment is_dl is_share_object = true)
    (h : mapSegment64 elf64 (guest_space arm64_layout 64) s f segment auxv_info is_dl is_share_object =
      some (s', auxv_info', true)) :
    Placed elf64 f (relocate elf64 segment is_dl is_share_object) is_dl s s' := by
  have hbits : elf64.bits = 32 ∨ elf64.bits = 64 := .inr rfl
  have hgranted := of_decide_eq_true hgranted
  unfold mapSegment64 at h
  dsimp only at h
  generalize relocate elf64 segment is_dl is_share_object = moved at *
  obtain ⟨⟨m, mapped⟩, hpart, h⟩ := Option.bind_eq_some_iff.mp h
  dsimp only at h
  cases mapped with
  | false =>
    rw [if_pos (by simp)] at h
    cases h
  | true =>
    rw [if_neg (by simp)] at h
    have hfile : Frame 64 (in_pages moved) s.mem m ∧
        (∀ i, i < moved.p_filesz → m.world.host.mapped ((moved.p_vaddr + i) / PAGE_SIZE) ∧
          m.byte (moved.p_vaddr + i) = f.getD (moved.p_offset + i) 0) ∧
        (moved.p_filesz ≠ 0 → (file_request elf64 moved f).granted (s.mem.answers 0) ∧
          m.answers = fun n => s.mem.answers (n + 2)) := by
      unfold map_file_part at hpart
      split_ifs at hpart with hzero
      · cases hpart
        exact ⟨.refl hlow, fun i hi => by omega, fun hne => absurd hzero hne⟩
      · obtain ⟨hg, hframe, hbytes⟩ :=
          map_file_placed (T := .arm64) (F := elf64) hbits hlow hwf htop hpart
        obtain ⟨⟨m₁, r⟩, hmap, hpart⟩ := Option.bind_eq_some_iff.mp hpart
        obtain ⟨rfl, -⟩ := Prod.mk.inj (Option.some.inj hpart)
        exact ⟨hframe, hbytes, fun _ => ⟨hg, mmap_guest_answers hmap⟩⟩
    obtain ⟨hframe, hbytes, hanswers⟩ := hfile
    split_ifs at h with heq hlt
    · obtain ⟨rfl, -⟩ := Prod.mk.inj (Option.some.inj h)
      exact ⟨hframe, ⟨hbytes, fun i hlo hhi => by omega⟩, rfl⟩
    · obtain ⟨⟨m', mapped⟩, hbss, h⟩ := Option.bind_eq_some_iff.mp h
      dsimp only at h
      cases mapped with
      | false =>
        -- the status is that of the file part, so there is one: then the zeros are granted
        rw [if_pos (by simp)] at h
        obtain ⟨-, hstatus⟩ := Prod.mk.inj (Option.some.inj h)
        have hne : moved.p_filesz ≠ 0 := of_decide_eq_true (Prod.mk.inj hstatus).2
        obtain ⟨hg, ha⟩ := hanswers hne
        have hcarried := map_bss_carried (T := .arm64) (F := elf64) (fun hneeds => ?_)
          (zeroAddrSize_ne hlt hm) hbss
        · cases hcarried
        · obtain ⟨hge, -⟩ := bss_end hbits (Nat.le_of_lt hlt) htop hneeds
          rw [ha]
          exact ⟨by omega, hgranted ⟨hne, hg, hneeds⟩⟩
      | true =>
        rw [if_neg (by simp)] at h
        cases h
        have hzeros := map_bss_placed (T := .arm64) (F := elf64) hbits hframe.low hlt hm htop hbss
        obtain ⟨hframe, hplaced⟩ := in_place_of_parts (F := elf64) hframe hbytes hzeros
        exact ⟨hframe, hplaced, rfl⟩

/-- In `loader32.c` the status is that of both parts. -/
theorem mapSegment32_placed (hlow : Low 32 s.mem.world.vm.vma_list)
    (hwf : well_formed (relocate elf32 segment is_dl is_share_object))
    (hm : (relocate elf32 segment is_dl is_share_object).p_memsz < 2 ^ 32)
    (htop : (relocate elf32 segment is_dl is_share_object).p_vaddr +
      (relocate elf32 segment is_dl is_share_object).p_memsz ≤ 2 ^ 32)
    (h : mapSegment32 elf32 (guest_space arm_layout 32) s f segment auxv_info is_dl is_share_object =
      some (s', auxv_info', true)) :
    Placed elf32 f (relocate elf32 segment is_dl is_share_object) is_dl s s' := by
  have hbits : elf32.bits = 32 ∨ elf32.bits = 64 := .inl rfl
  unfold mapSegment32 at h
  dsimp only at h
  generalize relocate elf32 segment is_dl is_share_object = moved at *
  obtain ⟨⟨m, mapped⟩, hpart, h⟩ := Option.bind_eq_some_iff.mp h
  dsimp only at h
  cases mapped with
  | false =>
    rw [if_pos (by simp)] at h
    obtain ⟨_, -, h⟩ := Option.map_eq_some_iff.mp h
    cases h
  | true =>
    rw [if_neg (by simp)] at h
    obtain ⟨-, hframe, hbytes⟩ := map_file_placed (T := .arm) (F := elf32) hbits hlow hwf htop hpart
    have hsize := zeroAddrSize_eq (F := elf32) hwf.1 hm
    split_ifs at h with hzero
    · obtain ⟨_, -, h⟩ := Option.map_eq_some_iff.mp h
      cases h
      exact ⟨hframe, ⟨hbytes, fun i hlo hhi => by omega⟩, rfl⟩
    · obtain ⟨⟨m', mapped⟩, hbss, h⟩ := Option.bind_eq_some_iff.mp h
      dsimp only at h
      cases mapped with
      | false =>
        rw [if_pos (by simp)] at h
        cases h
      | true =>
        rw [if_neg (by simp)] at h
        obtain ⟨_, -, h⟩ := Option.map_eq_some_iff.mp h
        cases h
        have hzeros :=
          map_bss_placed (T := .arm) (F := elf32) hbits hframe.low (by omega) hm htop hbss
        obtain ⟨hframe, hplaced⟩ := in_place_of_parts (F := elf32) hframe hbytes hzeros
        exact ⟨hframe, hplaced, rfl⟩

end segments

/-! ## The loop -/

/-- What a list of segments comes to. -/
structure AllPlaced (bits : Nat) (segments : List (List UInt8 × Elf_Phdr)) (m m' : guest_memory) :
    Prop where
  frame : Frame bits (fun x => ∃ p ∈ segments, in_pages p.2 x) m m'
  placed : ∀ p ∈ segments, in_place p.1 p.2 m'

/-- What the loop needs of each segment. -/
def fit (F : elf_format) (segments : List (List UInt8 × Elf_Phdr)) : Prop :=
  (∀ p ∈ segments, well_formed p.2) ∧ apart F segments

/-- The segments of a loader are put in place. -/
def Places (L : loader guest_memory) : Prop :=
  ∀ s f hdr i segment auxv_info is_dl is_share_object s' auxv_info',
    L.format.getSegment f hdr i = some segment → Low L.format.bits s.mem.world.vm.vma_list →
    fit L.format [(f, relocate L.format segment is_dl is_share_object)] →
    L.mapSegment s f segment auxv_info is_dl is_share_object = some (s', auxv_info', true) →
      Placed L.format f (relocate L.format segment is_dl is_share_object) is_dl s s'

/-- A call for an interpreter puts its segments in place, and leaves the break. -/
def PlacesDl (F : elf_format) (dl_segments : List UInt8 → List (List UInt8 × Elf_Phdr))
    (load_dl : List UInt8 → load_state guest_memory → load_result guest_memory) : Prop :=
  ∀ name s s' auxv_info r, load_dl name s = some (s', auxv_info, r) → r ≠ 0 →
    Low F.bits s.mem.world.vm.vma_list → fit F (dl_segments name) →
      AllPlaced F.bits (dl_segments name) s.mem s'.mem ∧ s'.startbrk = s.startbrk

section lists

variable {F : elf_format} {bits : Nat} {xs ys : List (List UInt8 × Elf_Phdr)} {m m' m'' : guest_memory}

theorem AllPlaced.nil (h : Low bits m.world.vm.vma_list) : AllPlaced bits [] m m :=
  ⟨.refl h, fun _ hp => absurd hp List.not_mem_nil⟩

/-- A segment stays in place when another one is mapped to other pages. -/
theorem in_place.kept {f : List UInt8} {segment : Elf_Phdr} {P : Nat → Prop} (h : in_place f segment m)
    (hwf : well_formed segment) (hframe : Frame bits P m m')
    (hP : ∀ x, in_pages segment x → ¬ P x) : in_place f segment m' := by
  have hin : ∀ i, i < segment.p_memsz → in_pages segment (segment.p_vaddr + i) := by
    intro i hi
    unfold in_pages page_start PAGE_SIZE
    omega
  constructor
  · intro i hi
    obtain ⟨hmapped, hbyte⟩ := h.file i hi
    refine ⟨hframe.mapped _ hmapped, ?_⟩
    rw [hframe.kept _ (hP _ (hin i (Nat.lt_of_lt_of_le hi hwf.1))), hbyte]
  · intro i hlo hhi
    obtain ⟨hmapped, hbyte⟩ := h.zeros i hlo hhi
    refine ⟨hframe.mapped _ hmapped, ?_⟩
    rw [hframe.kept _ (hP _ (hin i hhi)), hbyte]

theorem not_in_both {a b : Elf_Phdr} (h : disjoint_pages a b) (x : Nat) (ha : in_pages a x) :
    ¬ in_pages b x := by
  rintro ⟨hlo, hhi⟩
  obtain ⟨hlo', hhi'⟩ := ha
  unfold disjoint_pages end_page at h
  omega

theorem AllPlaced.append (hfit : fit F (xs ++ ys)) (h : AllPlaced bits xs m m')
    (h' : AllPlaced bits ys m' m'') : AllPlaced bits (xs ++ ys) m m'' := by
  obtain ⟨hwf, -, happart⟩ := hfit
  obtain ⟨-, -, hcross⟩ := List.pairwise_append.mp happart
  constructor
  · refine (h.frame.trans h'.frame).mono ?_
    rintro x (⟨p, hp, hx⟩ | ⟨p, hp, hx⟩)
    · exact ⟨p, List.mem_append_left ys hp, hx⟩
    · exact ⟨p, List.mem_append_right xs hp, hx⟩
  · intro p hp
    rcases List.mem_append.mp hp with hp | hp
    · refine (h.placed p hp).kept (hwf p (List.mem_append_left ys hp)) h'.frame ?_
      rintro x hx ⟨p', hp', hx'⟩
      exact not_in_both (hcross p hp p' hp') x hx hx'
    · exact h'.placed p hp

theorem fit.left (h : fit F (xs ++ ys)) : fit F xs :=
  ⟨fun p hp => h.1 p (List.mem_append_left ys hp),
    fun p hp => h.2.1 p (List.mem_append_left ys hp), (List.pairwise_append.mp h.2.2).1⟩

theorem fit.right (h : fit F (xs ++ ys)) : fit F ys :=
  ⟨fun p hp => h.1 p (List.mem_append_right xs hp),
    fun p hp => h.2.1 p (List.mem_append_right xs hp), (List.pairwise_append.mp h.2.2).2.1⟩

end lists

section loop

variable {L : loader guest_memory} {f : List UInt8} {hdr : Elf_Ehdr} {is_dl : Bool}
  {load_dl : List UInt8 → load_state guest_memory → load_result guest_memory}
  {dl_segments : List UInt8 → List (List UInt8 × Elf_Phdr)} {l l' : loop_state guest_memory}

/-- The segment of a header that is mapped for the program itself. -/
def own_segment (F : elf_format) (f : List UInt8) (hdr : Elf_Ehdr) (i : Nat) : Option Elf_Phdr :=
  ((F.getSegment f hdr i).filter fun segment => segment.p_type = PT_LOAD).map fun segment =>
    relocate F segment false (hdr.e_type = ET_DYN)

/-- The end of the last one of some segments, or what the break was. -/
def last_end (F : elf_format) (segments : List Elf_Phdr) (startbrk : Nat) : Nat :=
  (segments.getLast?.map fun segment => F.add segment.p_vaddr segment.p_memsz).getD startbrk

theorem own_segment_load {F : elf_format} {i : Nat} {segment : Elf_Phdr}
    (hsegment : F.getSegment f hdr i = some segment) (hload : segment.p_type = PT_LOAD) :
    own_segment F f hdr i = some (relocate F segment false (hdr.e_type = ET_DYN)) := by
  unfold own_segment
  rw [hsegment, Option.filter_some, if_pos (decide_eq_true hload), Option.map_some]

theorem own_segment_other {F : elf_format} {i : Nat} {segment : Elf_Phdr}
    (hsegment : F.getSegment f hdr i = some segment) (hne : segment.p_type ≠ PT_LOAD) :
    own_segment F f hdr i = none := by
  unfold own_segment
  rw [hsegment, Option.filter_some, if_neg (by simpa using hne), Option.map_none]

theorem last_end_single (F : elf_format) (segment : Elf_Phdr) (b : Nat) :
    last_end F [segment] b = F.add segment.p_vaddr segment.p_memsz := by
  unfold last_end
  rw [List.getLast?_singleton, Option.map_some, Option.getD_some]

theorem last_end_append (F : elf_format) (xs ys : List Elf_Phdr) (b : Nat) :
    last_end F (xs ++ ys) b = last_end F ys (last_end F xs b) := by
  unfold last_end
  rw [List.getLast?_append]
  cases ys.getLast? <;> rfl

/-- The break that some headers leave. -/
def break_after (F : elf_format) (f : List UInt8) (hdr : Elf_Ehdr) (is_dl : Bool) (is : List Nat)
    (startbrk : Nat) : Nat :=
  if is_dl then startbrk else last_end F (is.filterMap (own_segment F f hdr)) startbrk

theorem load_segment_placed (hL : Places L) (hdl : PlacesDl L.format dl_segments load_dl)
    (hlow : Low L.format.bits l.state.mem.world.vm.vma_list) {i : Nat}
    (hfit : fit L.format (header_segments L.format dl_segments f hdr is_dl i))
    (h : load_segment L load_dl f hdr is_dl l i = some (l', true)) :
    AllPlaced L.format.bits (header_segments L.format dl_segments f hdr is_dl i) l.state.mem
        l'.state.mem ∧
      l'.state.startbrk = break_after L.format f hdr is_dl [i] l.state.startbrk := by
  unfold load_segment at h
  cases hsegment : L.format.getSegment f hdr i with
  | none =>
    simp only [hsegment] at h
    cases h
  | some segment =>
    simp only [header_segments, hsegment] at h hfit ⊢
    -- a header that is no segment leaves the break
    have hskip : segment.p_type ≠ PT_LOAD → ∀ b, break_after L.format f hdr is_dl [i] b = b := by
      intro hne b
      unfold break_after
      rw [List.filterMap_cons_none (own_segment_other hsegment hne), List.filterMap_nil]
      exact ite_self b
    split_ifs at h hfit ⊢ with hload hinterp
    · obtain ⟨⟨s, auxv_info, status⟩, hmap, h⟩ := Option.bind_eq_some_iff.mp h
      cases h
      obtain ⟨hframe, hplaced, hbrk⟩ := hL _ _ _ _ _ _ _ _ _ _ hsegment hlow hfit hmap
      refine ⟨⟨hframe.mono fun x hx => ⟨_, List.mem_singleton_self _, hx⟩, ?_⟩, ?_⟩
      · intro p hp
        rw [List.mem_singleton.mp hp]
        exact hplaced
      · show s.startbrk = _
        rw [hbrk]
        unfold break_after next_startbrk
        rw [List.filterMap_cons_some (own_segment_load hsegment hload), List.filterMap_nil]
        cases is_dl with
        | true => rw [if_pos rfl, if_pos rfl]
        | false =>
          rw [if_neg (by simp), if_neg (by simp)]
          exact (last_end_single _ _ _).symm
    · obtain ⟨dl_name, hname, h⟩ := Option.bind_eq_some_iff.mp h
      obtain ⟨⟨s, dl_auxv_info, dl_entry⟩, hcall, h⟩ := Option.bind_eq_some_iff.mp h
      rw [hname] at hfit ⊢
      dsimp only at h
      split_ifs at h with hentry
      · cases h
      · cases h
        obtain ⟨hall, hbrk⟩ := hdl _ _ _ _ _ hcall hentry hlow hfit
        exact ⟨hall, hbrk.trans (hskip hload _).symm⟩
    · cases h
      exact ⟨.nil hlow, (hskip hload _).symm⟩
    · cases h
      exact ⟨.nil hlow, (hskip hload _).symm⟩

theorem load_segments_placed (hL : Places L) (hdl : PlacesDl L.format dl_segments load_dl)
    {is : List Nat} (hlow : Low L.format.bits l.state.mem.world.vm.vma_list)
    (hfit : fit L.format (is.flatMap (header_segments L.format dl_segments f hdr is_dl)))
    (h : load_segments L load_dl f hdr is_dl is l = some (l', none)) :
    AllPlaced L.format.bits (is.flatMap (header_segments L.format dl_segments f hdr is_dl))
        l.state.mem l'.state.mem ∧
      l'.state.startbrk = break_after L.format f hdr is_dl is l.state.startbrk := by
  induction is generalizing l with
  | nil =>
    cases h
    refine ⟨.nil hlow, ?_⟩
    cases is_dl <;> rfl
  | cons i is ih =>
    obtain ⟨⟨l₁, status⟩, hturn, h⟩ := Option.bind_eq_some_iff.mp h
    cases status with
    | false => cases h
    | true =>
      rw [List.flatMap_cons] at hfit ⊢
      obtain ⟨hfirst, hbrk⟩ := load_segment_placed hL hdl hlow hfit.left hturn
      obtain ⟨hrest, hbrk'⟩ := ih hfirst.frame.low hfit.right h
      refine ⟨hfirst.append hfit hrest, ?_⟩
      rw [hbrk', hbrk]
      unfold break_after
      cases is_dl with
      | true => rfl
      | false =>
        rw [if_neg (by simp), if_neg (by simp), if_neg (by simp), ← last_end_append,
          ← List.filterMap_append]
        rfl

end loop

/-! ## Whole files -/

section files

variable {L : loader guest_memory} {ops : space guest_memory}
  {files : List UInt8 → Option (List UInt8)} {depth : Nat} {file f : List UInt8}
  {s s' : load_state guest_memory} {auxv_info auxv_info' : load_auxv_info} {r : Nat}

/-- A call that is accepted; for an interpreter it leaves the break. -/
theorem load_internal_placed (hL : Places L) {is_dl : Bool}
    (hlow : Low L.format.bits s.mem.world.vm.vma_list)
    (hfit : fit L.format (mapped_segments L.format files depth file is_dl)) (hr : r ≠ 0)
    (h : load_internal L ops files depth file s auxv_info is_dl = some (s', auxv_info', r)) :
    AllPlaced L.format.bits (mapped_segments L.format files depth file is_dl) s.mem s'.mem ∧
      ∃ f, files file = some f ∧ s'.startbrk = break_after L.format f (L.format.getEntry f is_dl).1
        is_dl (List.range (L.format.getEntry f is_dl).1.e_phnum) s.startbrk := by
  induction depth generalizing file s auxv_info is_dl s' auxv_info' r with
  | zero => cases h
  | succ depth ih =>
    have hdl : PlacesDl L.format (fun name => mapped_segments L.format files depth name true)
        fun name s => load_internal L ops files depth name s no_auxv_info true := by
      intro name s s' auxv_info r h hr hlow hfit
      obtain ⟨hall, g, -, hbrk⟩ := ih hlow hfit hr h
      exact ⟨hall, hbrk⟩
    unfold load_internal at h
    unfold mapped_segments at hfit ⊢
    cases hfile : files file with
    | none =>
      simp only [hfile, Option.some.injEq, Prod.mk.injEq] at h
      exact absurd h.2.2.symm hr
    | some f =>
      simp only [hfile] at h hfit ⊢
      split_ifs at h with hentry
      · exact absurd (Prod.mk.inj (Prod.mk.inj (Option.some.inj h)).2).2.symm hr
      obtain ⟨⟨l, stopped⟩, hloop, h⟩ := Option.bind_eq_some_iff.mp h
      cases stopped with
      | none =>
        obtain ⟨auxv, -, h⟩ := Option.bind_eq_some_iff.mp h
        cases h
        obtain ⟨hall, hbrk⟩ := load_segments_placed hL hdl hlow hfit hloop
        exact ⟨hall, f, rfl, hbrk⟩
      -- a load that is undone is not accepted
      | some i =>
        obtain ⟨m, -, h⟩ := Option.bind_eq_some_iff.mp h
        exact absurd (Prod.mk.inj (Prod.mk.inj (Option.some.inj h)).2).2.symm hr

/-- The segments of a program, as they are passed. -/
theorem own_segments_eq (F : elf_format) (f : List UInt8) :
    (List.range (program_header F f).e_phnum).filterMap (own_segment F f (program_header F f)) =
      load_segments_of F f := by
  unfold load_segments_of program_headers own_segment
  rw [List.filter_filterMap, List.map_filterMap]

theorem loaded_of_placed {F : elf_format} (hfile : files file = some f)
    (h : AllPlaced F.bits (mapped_segments F files depth file false) s.mem s'.mem ∧
      ∃ f, files file = some f ∧ s'.startbrk = break_after F f (F.getEntry f false).1 false
        (List.range (F.getEntry f false).1.e_phnum) s.startbrk) : Loaded F files depth file f s' where
  segments := h.1.placed
  startbrk := by
    obtain ⟨-, g, hg, hbrk⟩ := h
    obtain rfl : g = f := Option.some.inj (hg.symm.trans hfile)
    intro segment hlast
    have hown : (List.range (F.getEntry g false).1.e_phnum).filterMap
        (own_segment F g (F.getEntry g false).1) = load_segments_of F g := own_segments_eq F g
    rw [hbrk]
    unfold break_after last_end
    rw [if_neg (by simp), hown, hlast, Option.map_some, Option.getD_some]

theorem granted_loader64_places : Places granted_loader64 := by
  intro s f hdr i segment auxv_info is_dl is_share_object s' auxv_info' hsegment hlow hfit hmap
  obtain ⟨hgranted, hmap⟩ := of_ite_some hmap
  have hsegment : elf64.getSegment f hdr i = some segment := hsegment
  obtain ⟨-, hmemsz, -⟩ := relocate_sizes elf64 (.inr rfl) segment is_dl is_share_object
  refine mapSegment64_placed hlow (hfit.1 _ (List.mem_singleton_self _)) ?_
    (hfit.2.1 _ (List.mem_singleton_self _)) hgranted hmap
  rw [hmemsz]
  obtain ⟨bytes, -, rfl⟩ := Option.map_eq_some_iff.mp (of_ite_some hsegment).2
  exact field_lt bytes 40 8

theorem loader32_places : Places (loader32 (guest_space arm_layout 32)) := by
  intro s f hdr i segment auxv_info is_dl is_share_object s' auxv_info' hsegment hlow hfit hmap
  have hsegment : elf32.getSegment f hdr i = some segment := hsegment
  obtain ⟨-, hmemsz, -⟩ := relocate_sizes elf32 (.inl rfl) segment is_dl is_share_object
  refine mapSegment32_placed hlow (hfit.1 _ (List.mem_singleton_self _)) ?_
    (hfit.2.1 _ (List.mem_singleton_self _)) hmap
  rw [hmemsz]
  obtain ⟨bytes, -, rfl⟩ := Option.map_eq_some_iff.mp (of_ite_some hsegment).2
  exact field_lt bytes 20 4

/-- A load that is accepted has put every segment in place. -/
theorem accepted_load_in_place (hfile : files file = some f) (hr : r ≠ 0) :
    ((Memory.address_space arm64_layout).Reach (fun _ _ => True) s.mem.world →
      (∀ p ∈ mapped_segments elf64 files depth file false, well_formed p.2) →
      apart elf64 (mapped_segments elf64 files depth file false) →
      granted64 files depth file s auxv_info →
      load64 (guest_space arm64_layout 64) files depth file s auxv_info = some (s', auxv_info', r) →
        Loaded elf64 files depth file f s') ∧
    ((Memory.address_space arm_layout).Reach (fun _ _ => True) s.mem.world →
      (∀ p ∈ mapped_segments elf32 files depth file false, well_formed p.2) →
      apart elf32 (mapped_segments elf32 files depth file false) →
      load32 (guest_space arm_layout 32) files depth file s auxv_info = some (s', auxv_info', r) →
        Loaded elf32 files depth file f s') := by
  constructor
  · intro hreach hwf happart hgranted hload
    have hlow := low_of_reach (T := .arm64) init_low64 hreach
    obtain ⟨run, hrun⟩ := Option.isSome_iff_exists.mp hgranted
    have hext : (loader64 (guest_space arm64_layout 64)).Extends granted_loader64 :=
      ⟨rfl, rfl, fun _ _ _ _ _ _ _ h => (of_ite_some h).2⟩
    have hsame := load_internal_extends hext ⟨fun _ _ _ h => h, fun _ _ _ _ h => h, fun _ _ _ _ h => h⟩
      files depth file s auxv_info false run hrun
    rw [Option.some.inj (hsame.symm.trans hload)] at hrun
    exact loaded_of_placed hfile
      (load_internal_placed granted_loader64_places hlow ⟨hwf, happart⟩ hr hrun)
  · intro hreach hwf happart hload
    have hlow := low_of_reach (T := .arm) init_low32 hreach
    exact loaded_of_placed hfile (load_internal_placed loader32_places hlow ⟨hwf, happart⟩ hr hload)

end files

/-! ## A program with zeros -/

section example_files

/-- The second of its two segments is not all in the file. -/
def with_zeros (p_memsz : Nat) : List UInt8 :=
  elf64_header ET_EXEC 0x400000 64 2 ++ (elf64_segment ⟨PT_LOAD, 5, 0, 0x400000, 176, 176⟩ ++
    elf64_segment ⟨PT_LOAD, 6, 0, 0x401000, 0xff0, p_memsz⟩)

def only_with_zeros (p_memsz : Nat) (_ : List UInt8) : Option (List UInt8) := some (with_zeros p_memsz)

/-- The host refuses one call. -/
def load_with_zeros (p_memsz n : Nat) : load_result guest_memory :=
  load64 (guest_space arm64_layout 64) (only_with_zeros p_memsz) 1 [0x70] ⟨fresh_memory n, 0, 0⟩
    no_auxv_info

/-- The space of the guest, where zeros are written only to pages all of which can be written. -/
def paged_space : space guest_memory where
  mmap_guest := (guest_space arm64_layout 64).mmap_guest
  munmap_guest := (guest_space arm64_layout 64).munmap_guest
  clear := fun m a b =>
    if ∀ i, i < (b + (PAGE_SIZE - 1)) / PAGE_SIZE - a / PAGE_SIZE →
        m.world.host.mapped (a / PAGE_SIZE + i) ∧ m.writable (a / PAGE_SIZE + i) = true then
      some { m with byte := fun x => if a ≤ x ∧ x < b then 0 else m.byte x }
    else none

theorem paged_extends : (guest_space arm64_layout 64).Extends paged_space where
  mmap := fun _ _ _ h => h
  munmap := fun _ _ _ _ h => h
  clear := by
    intro m a b r h
    have hpages := (of_ite_some h).1
    have hr := (of_ite_some h).2
    show clear_bytes m a b = some r
    unfold clear_bytes
    rw [if_pos, hr]
    intro i hi
    have hpage := hpages ((a + i) / PAGE_SIZE - a / PAGE_SIZE) (by unfold PAGE_SIZE; omega)
    rw [show a / PAGE_SIZE + ((a + i) / PAGE_SIZE - a / PAGE_SIZE) = (a + i) / PAGE_SIZE by
      unfold PAGE_SIZE; omega] at hpage
    exact hpage

/-- The same condition on both sides. -/
theorem loader.Extends.both {M : Type} {L L' : loader M} (h : L.Extends L')
    (P : M → List UInt8 → Elf_Phdr → Bool → Bool → Bool) : (L.within P).Extends (L'.within P) where
  format := h.format
  fdpic := h.fdpic
  map := by
    intro s f segment auxv_info is_dl is_share_object r hr
    unfold loader.within at hr ⊢
    dsimp only at hr ⊢
    obtain ⟨hP, hr⟩ := of_ite_some hr
    rw [if_pos hP]
    exact h.map s f segment auxv_info is_dl is_share_object r hr

/-- With everything granted, the two pages of zeros are put in place too. -/
theorem granted_zeros_in_place : ∃ s' auxv_info' r, load_with_zeros 0x3000 9 = some (s', auxv_info', r) ∧
    r ≠ 0 ∧ Loaded elf64 (only_with_zeros 0x3000) 1 [0x70] (with_zeros 0x3000) s' := by
  have hmap := fun s f segment auxv_info is_dl is_share_object =>
    mapSegment64_extends (F := elf64) s f segment auxv_info is_dl is_share_object paged_extends
  have hresult : (load64 paged_space (only_with_zeros 0x3000) 1 [0x70] ⟨fresh_memory 9, 0, 0⟩
      no_auxv_info).map (·.2.2) = some 0x400000 := by decide +kernel
  obtain ⟨⟨s', auxv_info', r⟩, hpaged, hr⟩ := Option.map_eq_some_iff.mp hresult
  obtain rfl : r = 0x400000 := hr
  have hext : (loader64 (guest_space arm64_layout 64)).Extends (loader64 paged_space) :=
    ⟨rfl, rfl, hmap⟩
  have hload : load_with_zeros 0x3000 9 = some (s', auxv_info', 0x400000) := by
    unfold load64 at hpaged
    unfold load_with_zeros load64
    exact load_internal_extends hext paged_extends _ _ _ _ _ _ _ hpaged
  have hfile : only_with_zeros 0x3000 [0x70] = some (with_zeros 0x3000) := rfl
  have hgranted : granted64 (only_with_zeros 0x3000) 1 [0x70] ⟨fresh_memory 9, 0, 0⟩ no_auxv_info := by
    have hwithin : (load_internal ((loader64 paged_space).within (zeros_granted elf64)) paged_space
        (only_with_zeros 0x3000) 1 [0x70] ⟨fresh_memory 9, 0, 0⟩ no_auxv_info false).isSome = true := by
      decide +kernel
    obtain ⟨run, hrun⟩ := Option.isSome_iff_exists.mp hwithin
    unfold granted64 granted_loader64
    rw [load_internal_extends (hext.both _) paged_extends _ _ _ _ _ _ run hrun]
    rfl
  exact ⟨s', auxv_info', _, hload, by decide, (accepted_load_in_place hfile (by decide)).1 .init
    (by decide +kernel) (by decide +kernel) hgranted hload⟩

/-- The load is accepted without the zeros of its last segment, and without its break. -/
theorem refused_zeros_missing : ∃ s' auxv_info' r, load_with_zeros 0x3000 4 = some (s', auxv_info', r) ∧
    r ≠ 0 ∧ (Memory.address_space arm64_layout).Reach (fun _ _ => True) (fresh_memory 4).world ∧
    (∀ p ∈ mapped_segments elf64 (only_with_zeros 0x3000) 1 [0x70] false, well_formed p.2) ∧
    apart elf64 (mapped_segments elf64 (only_with_zeros 0x3000) 1 [0x70] false) ∧
    ¬ Loaded elf64 (only_with_zeros 0x3000) 1 [0x70] (with_zeros 0x3000) s' := by
  have hresult : (load_with_zeros 0x3000 4).map
      (fun r => (r.2.2, r.1.startbrk, decide (r.1.mem.world.host.mapped 0x402))) =
        some (0x400000, 0x4000b0, false) := by decide +kernel
  obtain ⟨⟨s', auxv_info', r⟩, hload, hr⟩ := Option.map_eq_some_iff.mp hresult
  obtain ⟨rfl, hr⟩ := Prod.mk.inj hr
  obtain ⟨-, hpage⟩ := Prod.mk.inj hr
  refine ⟨s', auxv_info', _, hload, by decide, .init, by decide +kernel, by decide +kernel, ?_⟩
  intro hloaded
  have hsegment : (with_zeros 0x3000, ⟨PT_LOAD, 6, 0, 0x401000, 0xff0, 0x3000⟩) ∈
      mapped_segments elf64 (only_with_zeros 0x3000) 1 [0x70] false := by decide +kernel
  have hmapped := ((hloaded.segments _ hsegment).zeros 0x1000 (by decide) (by decide)).1
  exact of_decide_eq_false hpage hmapped

end example_files

end Umeq.Loader
