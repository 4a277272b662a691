import Umeq.Memory.Neighbours
import Umeq.Memory.Requests
import Umeq.Memory.Faithful

/-! # What the queries of the address map can answer

    `is_area_valid`, `is_area_unmap` and `find_vma` look at one descriptor. That is
    enough when the list is canonical: no descriptor is empty, neighbours that
    touch have different types, and a page has one type. `insert_area` keeps the
    list so for the requests that `request.fits` describes: an empty request makes
    two neighbours of one type, a request that covers a whole descriptor of the
    other type from its start leaves that one in the list, empty, and a request
    that ends inside a page leaves free bytes that `find_vma` does not hand out.
-/

namespace Umeq.Memory

open Intervals

/-! ## Canonical lists -/

/-- Neighbours that touch have different types. -/
def Alternate (d d' : vma_desc) : Prop := d.end_addr = d'.start_addr → d.type ≠ d'.type

theorem alternate_compatible : Compatible Alternate where
  touch := fun hne _ _ => hne
  left := by
    intro d d' c h ht he _ htouch
    rw [ht]
    exact h (he.symm.trans htouch)
  right := by
    intro d c c' h ht hs htouch
    rw [ht]
    exact h (htouch.trans hs)
  flip_left := fun _ hne _ _ _ => hne
  flip_right := by
    intro d c c' h ht _ hs htouch
    exact absurd ht (h (htouch.trans hs))

/-- Every address of the page has the type. -/
def page_type (l : List vma_desc) (p : Nat) (t : vma_type) : Prop :=
  ∀ x, x / PAGE_SIZE = p → typeAt l x = some t

/-- The page is in the managed space. -/
def layout.managed_page (L : layout) (p : Nat) : Prop := ∀ x, x / PAGE_SIZE = p → L.managed x

structure Canonical (L : layout) (l : List vma_desc) : Prop where
  ordered : Ordered l
  none_empty : NoneEmpty l
  alternate : l.IsChain Alternate
  limit : BoundsIn (· ≤ TASK_SIZE) (· ≤ TASK_SIZE) l
  owned : ∀ x, L.managed x → ∃ v, typeAt l x = some v
  pages : ∀ x y, x / PAGE_SIZE = y / PAGE_SIZE → L.managed_page (x / PAGE_SIZE) →
    typeAt l x = typeAt l y

/-- The request is for pages, is not empty and spares the descriptor that starts with it, or
    there is nothing to do for it. -/
def request.fits (q : request) : Prop :=
  (Aligned q.start_addr ∧ Aligned q.end_addr ∧ q.start_addr < q.end_addr ∧
    SparesWhole q.vm.vma_list q.start_addr q.end_addr q.type) ∨
    q.start_addr = q.end_addr ∧ typeAt q.vm.vma_list q.start_addr = some q.type

section canonical

variable {L : layout} {l : List vma_desc} {s e : Nat} {t : vma_type}

/-- An empty request for the type that is already there changes nothing. -/
theorem insert_area_noop {u : area_update} (hl : Ordered l) (hs : typeAt l s = some t)
    (h : insert_area l s s t = some u) : u.vma_list = l := by
  obtain ⟨d, hd, hcov, hdt⟩ := lookup_some hs
  obtain ⟨pre, post, rfl⟩ := List.append_of_mem hd
  have hown := (owns_iff s d).mpr hcov
  obtain ⟨taken, heq⟩ := insert_area_single (t := t) hl hown hown
  rw [heq, if_pos hdt] at h
  obtain rfl := Option.some.inj h
  rfl

theorem Canonical.made {q : request} {vm : mmap_state} (h : Canonical L q.vm.vma_list)
    (hfits : q.fits) (hmade : q.made = some vm) : Canonical L vm.vma_list := by
  obtain ⟨u, hu, hlist, -⟩ := insert_spec hmade
  rw [hlist]
  rcases hfits with ⟨hs, he, hse, hspare⟩ | ⟨hse, htype⟩
  · have hret := insert_area_some h.ordered hse hu
    obtain ⟨⟨ds, hds, hos⟩, ⟨de, hde, hoe⟩⟩ := insert_area_owned hu
    have hls := (h.limit ds hds).2
    have hle := (h.limit de hde).2
    simp only [owns, decide_eq_true_eq] at hos hoe
    have hsl : q.start_addr ≤ TASK_SIZE := by omega
    have hel : q.end_addr ≤ TASK_SIZE := by omega
    refine ⟨hret.ordered, insert_area_noneEmpty h.ordered h.none_empty hse hspare hu,
      insert_area_chain alternate_compatible h.ordered h.alternate hse hu,
      hret.bounds _ _ hsl hel hsl hel h.limit, ?_, ?_⟩
    · intro x hx
      obtain ⟨v, hv⟩ := h.owned x hx
      exact ⟨_, hret.agree x v hv⟩
    · -- both addresses are in the request, or neither
      intro x y hxy hpage
      obtain ⟨v, hv⟩ := h.owned x (hpage x rfl)
      rw [hret.agree x v hv, hret.agree y v ((h.pages x y hxy hpage).symm.trans hv)]
      unfold Aligned PAGE_SIZE at *
      congr 2
      exact propext ⟨fun h => by omega, fun h => by omega⟩
  · -- an empty request of the type that is there changes nothing
    rw [← hse] at hu
    rw [insert_area_noop h.ordered htype hu]
    exact h

/-- In a canonical list a range has one type exactly when one descriptor has it all. -/
theorem Canonical.range_iff (h : Canonical L l) (hse : s < e) :
    (∀ x, s ≤ x → x < e → typeAt l x = some t) ↔
      ∃ d ∈ l, d.type = t ∧ d.start_addr ≤ s ∧ e ≤ d.end_addr := by
  constructor
  · intro hall
    obtain ⟨d, hd, hcov, hdt⟩ := lookup_some (hall s (Nat.le_refl s) hse)
    unfold Covers at hcov
    refine ⟨d, hd, hdt, hcov.1, ?_⟩
    by_contra hlt
    -- the owner of the end of `d` is the next descriptor, and it has another type
    obtain ⟨d', hd', hcov', hdt'⟩ := lookup_some (hall d.end_addr (by omega) (by omega))
    unfold Covers at hcov'
    obtain ⟨pre, post, rfl⟩ := List.append_of_mem hd
    obtain ⟨-, hpost, hsep⟩ := apart_append.mp h.ordered
    obtain ⟨-, hsep', hpost⟩ := apart_cons.mp hpost
    simp only [List.mem_append, List.mem_cons] at hd'
    rcases hd' with hmem | rfl | hmem
    · have := hsep d' hmem d (by simp)
      omega
    · omega
    · obtain ⟨next, rest, rfl⟩ := List.exists_cons_of_ne_nil (List.ne_nil_of_mem hmem)
      have hnext : next = d' := by
        rcases List.mem_cons.mp hmem with heq | hmem
        · exact heq.symm
        · -- a descriptor between them would be empty
          have h1 := (apart_cons.mp hpost).2.1 d' hmem
          have h2 := hsep' next (by simp)
          have h3 := h.none_empty next (by simp)
          omega
      subst hnext
      have halt := (List.isChain_append_cons_cons.mp h.alternate).2.1
      have hstart := hsep' next (by simp)
      exact halt (by omega) (hdt.trans hdt'.symm)
  · rintro ⟨d, hd, hdt, hs, he⟩ x hsx hxe
    have hcov : Covers vma_desc.start_addr vma_desc.end_addr d x := by
      unfold Covers
      omega
    rw [← hdt]
    exact h.ordered.lookup_eq vma_desc.type hd hcov

/-- The owner that a query finds is the descriptor of `range_iff`. -/
theorem Canonical.owner_iff (h : Canonical L l) (hse : s < e) {i : Nat} {d : vma_desc}
    (hi : find_address_owner l s = some i) (hd : l[i]? = some d) :
    (d.type = t ∧ e ≤ d.end_addr) ↔ ∀ x, s ≤ x → x < e → typeAt l x = some t := by
  obtain ⟨c, hc, hmem, hown⟩ := find_address_owner_getElem hi
  obtain rfl : c = d := Option.some.inj (hc.symm.trans hd)
  have hcov := (owns_iff s c).mp hown
  rw [h.range_iff hse]
  constructor
  · rintro ⟨ht, he⟩
    exact ⟨c, hmem, ht, hcov.1, he⟩
  · rintro ⟨c', hc', ht, hs, he⟩
    have hcov' : Covers vma_desc.start_addr vma_desc.end_addr c' s := by
      unfold Covers
      omega
    obtain rfl : c = c' := by
      have h1 := h.ordered.lookup_eq (fun d => d) hmem hcov
      have h2 := h.ordered.lookup_eq (fun d => d) hc' hcov'
      exact Option.some.inj (h1.symm.trans h2)
    exact ⟨ht, he⟩

end canonical

/-! ## The queries -/

/-- The queries miss nothing: a range of pages is found valid, or free, when all its pages
    are; and no search fails while there are enough free bytes in a row. The byte 0xffff1000,
    with which the last area of arm ends, is in no managed page. -/
structure Complete (L : layout) (vm : mmap_state) : Prop where
  valid : ∀ p n, 0 < n → (∀ k < n, L.managed_page (p + k)) →
    (is_area_valid vm (p * PAGE_SIZE) ((p + n) * PAGE_SIZE) = true ↔
      ∀ k < n, page_type vm.vma_list (p + k) .VMA_MAP)
  unmap : ∀ p n, 0 < n → (∀ k < n, L.managed_page (p + k)) →
    ∃ b, is_area_unmap vm (p * PAGE_SIZE) ((p + n) * PAGE_SIZE) = some b ∧
      (b = true ↔ ∀ k < n, page_type vm.vma_list (p + k) .VMA_UNMAP)
  found : ∀ length vm', 0 < length → find_vma vm length = some (vm', none) →
    ¬ ∃ a, ∀ x, a ≤ x → x < a + length → L.managed_page (x / PAGE_SIZE) ∧
      typeAt vm.vma_list x = some .VMA_UNMAP

section queries

variable {L : layout} {vm : mmap_state} {p n : Nat} {t : vma_type}

/-- Pages and their addresses. -/
theorem page_type_range (l : List vma_desc) (p n : Nat) (t : vma_type) :
    (∀ k < n, page_type l (p + k) t) ↔
      ∀ x, p * PAGE_SIZE ≤ x → x < (p + n) * PAGE_SIZE → typeAt l x = some t := by
  unfold page_type PAGE_SIZE
  constructor
  · intro h x hlo hhi
    exact h (x / 4096 - p) (by omega) x (by omega)
  · intro h k hk x hx
    exact h x (by omega) (by omega)

/-- What the two queries see of a range of managed pages. -/
theorem Canonical.query (h : Canonical L vm.vma_list) (hn : 0 < n)
    (hm : ∀ k < n, L.managed_page (p + k)) :
    PAGE_ALIGN_DOWN (p * PAGE_SIZE) = p * PAGE_SIZE ∧
    PAGE_ALIGN_UP ((p + n) * PAGE_SIZE) = (p + n) * PAGE_SIZE ∧
    ∃ i d, find_address_owner vm.vma_list (p * PAGE_SIZE) = some i ∧ vm.vma_list[i]? = some d ∧
      ∀ t, (d.type = t ∧ (p + n) * PAGE_SIZE ≤ d.end_addr) ↔
        ∀ k < n, page_type vm.vma_list (p + k) t := by
  have hlt : p * PAGE_SIZE < (p + n) * PAGE_SIZE := by
    unfold PAGE_SIZE
    omega
  -- the last address of the range has an owner, so its end is below the limit
  have hend : (p + n) * PAGE_SIZE ≤ TASK_SIZE := by
    have hlast : L.managed ((p + n) * PAGE_SIZE - 1) := by
      refine hm (n - 1) (by omega) _ ?_
      unfold PAGE_SIZE
      omega
    obtain ⟨v, hv⟩ := h.owned _ hlast
    obtain ⟨d, hd, hcov, -⟩ := lookup_some hv
    have := (h.limit d hd).2
    unfold Covers at hcov
    omega
  have hfirst : L.managed (p * PAGE_SIZE) := by
    refine hm 0 hn _ ?_
    unfold PAGE_SIZE
    omega
  obtain ⟨v, hv⟩ := h.owned _ hfirst
  obtain ⟨d, hd, hcov, -⟩ := lookup_some hv
  obtain ⟨pre, post, hsplit⟩ := List.append_of_mem hd
  have hi : find_address_owner vm.vma_list (p * PAGE_SIZE) = some pre.length := by
    rw [hsplit]
    exact find_address_owner_eq (hsplit ▸ h.ordered) ((owns_iff _ d).mpr hcov)
  have hget : vm.vma_list[pre.length]? = some d := by simp [hsplit]
  refine ⟨?_, PAGE_ALIGN_UP_of_aligned hend ?_, pre.length, d, hi, hget, ?_⟩
  · unfold PAGE_ALIGN_DOWN PAGE_SIZE
    omega
  · unfold Aligned PAGE_SIZE
    omega
  · intro t
    rw [page_type_range]
    exact h.owner_iff hlt hi hget

theorem Canonical.complete (h : Canonical L vm.vma_list) : Complete L vm := by
  refine ⟨?_, ?_, ?_⟩
  · intro p n hn hm
    obtain ⟨hdown, hup, i, d, hi, hd, hiff⟩ := h.query hn hm
    unfold find_address_owner at hi
    unfold is_area_valid
    rw [hdown, hup, hi]
    simp only [hd, decide_eq_true_eq]
    exact hiff .VMA_MAP
  · intro p n hn hm
    obtain ⟨hdown, hup, i, d, hi, hd, hiff⟩ := h.query hn hm
    unfold is_area_unmap
    simp only [hdown, hup, hi, hd, Option.bind_eq_bind, Option.bind_some]
    refine ⟨_, rfl, ?_⟩
    rw [decide_eq_true_eq]
    exact hiff .VMA_UNMAP
  · rintro length vm' hlen hfind ⟨a, hbytes⟩
    have hrun : ∀ x, a ≤ x → x < a + length →
        page_type vm.vma_list (x / PAGE_SIZE) .VMA_UNMAP := by
      intro x hlo hhi y hy
      obtain ⟨hpage, hfree⟩ := hbytes x hlo hhi
      rw [← h.pages x y hy.symm hpage]
      exact hfree
    -- the pages of the run are inside one free descriptor
    obtain ⟨d, hd, hdt, hlo, hhi⟩ := (h.range_iff (t := .VMA_UNMAP)
        (s := a / PAGE_SIZE * PAGE_SIZE) (e := (a + length - 1) / PAGE_SIZE * PAGE_SIZE + PAGE_SIZE)
        (by unfold PAGE_SIZE; omega)).mp (by
      intro x hx hxe
      by_cases hxa : x < a
      · refine hrun a (Nat.le_refl a) (by omega) x ?_
        unfold PAGE_SIZE at *
        omega
      · by_cases hxl : x < a + length
        · exact hrun x (by omega) hxl x rfl
        · refine hrun (a + length - 1) (by omega) (by omega) x ?_
          unfold PAGE_SIZE at *
          omega)
    have hlim := (h.limit d hd).2
    have hlength : length ≤ TASK_SIZE := by
      unfold PAGE_SIZE at *
      omega
    obtain ⟨hal, hge, hlt, -⟩ := PAGE_ALIGN_UP_spec hlength
    have hsize : sub64 d.end_addr d.start_addr ≥ PAGE_ALIGN_UP length := by
      rw [sub64_eq (h.ordered.1 d hd) hlim]
      unfold Aligned PAGE_SIZE at *
      omega
    unfold find_vma at hfind
    dsimp only at hfind
    split at hfind
    · next hnone =>
      have := List.find?_eq_none.mp hnone d hd
      simp [hdt, hsize] at this
    · obtain ⟨v, -, hres⟩ := Option.bind_eq_some_iff.mp hfind
      cases (Prod.mk.inj (Option.some.inj hres)).2

end queries

/-- The list of the world is canonical. -/
def CanonicalIn (L : layout) (w : world) : Prop := Canonical L w.vm.vma_list

theorem init_canonical (T : target) : CanonicalIn T.layout (address_space T.layout).init := by
  have hinit := init_in_step T
  refine ⟨hinit.ordered, ?_, ?_, hinit.limit, hinit.owned, ?_⟩
  · unfold NoneEmpty
    cases T <;> decide
  · cases T <;> simp [address_space, mmap_init, target.layout, arm64_layout, arm_layout, arm64_initial_list,
      Alternate]
  · intro x y hxy hpage
    have hx : T.layout.managed x := hpage x rfl
    have hy : T.layout.managed y := hpage y hxy.symm
    exact hx.trans hy.symm

/-- In every run whose requests to `insert_area` all fit, the queries miss nothing. -/
theorem queries_complete (T : target) (w : world)
    (h : (address_space T.layout).Reach (fun w c => ∀ q ∈ c.requests T.layout w, q.fits) w) :
    Complete T.layout w.vm := by
  have hcan : CanonicalIn T.layout w := by
    refine h.invariant (init_canonical T) ?_
    intro v c v' hv hfits hexec
    have htrace := call_trace T.layout v c
    rw [show c.exec T.layout v = some v' from hexec] at htrace
    exact htrace.keeps (fun q hq hcan vm hmade => hcan.made (hfits q hq) hmade) hv
  exact hcan.complete

/-- A kernel-chosen page on arm64. -/
def mmap_page : call := .mmap 0 0x1000 false false .accepts

/-- The page is unmapped again. -/
def munmap_page : call := .munmap 0x4000000000 0x1000 .accepts

theorem mmap_page_requests : mmap_page.requests arm64_layout (address_space arm64_layout).init =
    [⟨mmap_init arm64_layout, 0x4000000000, 0x4000001000, .VMA_MAP⟩] := rfl

theorem mmap_page_complete : ∃ w,
    (address_space arm64_layout).exec (address_space arm64_layout).init mmap_page = some w ∧
    is_area_valid w.vm 0x4000000000 0x4000001000 = true ∧ Complete arm64_layout w.vm := by
  refine ⟨one_page, rfl, by decide, queries_complete .arm64 _ (.step .init ?_ one_page_exec)⟩
  intro q hq
  have hq : q ∈ mmap_page.requests arm64_layout (address_space arm64_layout).init := hq
  rw [mmap_page_requests, List.mem_singleton] at hq
  subst hq
  refine .inl ⟨by decide, by decide, by decide, ?_⟩
  unfold SparesWhole
  decide

/-- The list after the page is unmapped: its descriptor is left, empty, between two free
    areas that touch. -/
def page_left : List vma_desc :=
  [⟨.VMA_UNMAP, 0x400000, 0x4000000000⟩, ⟨.VMA_MAP, 0x4000000000, 0x4000000000⟩,
    ⟨.VMA_UNMAP, 0x4000000000, 0x7000000000⟩, ⟨.VMA_MAP, 0x7000000000, 0x7000001000⟩]

theorem page_left_free {x : Nat} (hlo : 0x400000 ≤ x) (hhi : x < 0x7000000000) :
    typeAt page_left x = some .VMA_UNMAP := by
  unfold typeAt lookup page_left
  by_cases hx : x < 0x4000000000
  · rw [owner_cons, if_pos ⟨hlo, hx⟩]
    rfl
  · rw [owner_cons, if_neg (by unfold Covers; simp only; omega), owner_cons,
      if_neg (by unfold Covers; simp only; omega), owner_cons, if_pos (by unfold Covers; simp only; omega)]
    rfl

theorem page_managed {p : Nat} (hlo : 0x400 ≤ p) (hhi : p < 0x7000000) :
    arm64_layout.managed_page p := by
  intro x hx
  unfold PAGE_SIZE at hx
  unfold layout.managed typeAt lookup arm64_layout arm64_initial_list
  rw [owner_cons, if_pos ⟨by simp only; omega, by simp only; omega⟩]
  rfl

/-- A page is mapped and unmapped. The two pages around the place where it began are
    free, and `is_area_unmap` says that they are not. When instead a part of the page is
    moved, `find_vma` does not find the free bytes that end inside the page. -/
theorem unmapped_page_not_complete :
    (∃ w, (address_space arm64_layout).Reach (fun _ _ => True) w ∧
      is_area_unmap w.vm 0x3ffffff000 0x4000001000 = some false ∧ ¬ Complete arm64_layout w.vm) ∧
    ∃ w vm', (address_space arm64_layout).Reach (fun _ _ => True) w ∧
      find_vma w.vm 0x3fffc00800 = some (vm', none) ∧ ¬ Complete arm64_layout w.vm := by
  refine ⟨?_, ?_⟩
  · obtain ⟨w, hw, hlist, hquery⟩ : ∃ w, (address_space arm64_layout).Reach (fun _ _ => True) w ∧
        w.vm.vma_list = page_left ∧ is_area_unmap w.vm 0x3ffffff000 0x4000001000 = some false :=
      ⟨_, .step (.step .init trivial one_page_exec) (l := munmap_page) trivial rfl, by decide,
        by decide⟩
    refine ⟨w, hw, hquery, ?_⟩
    intro h
    obtain ⟨b, hb, hiff⟩ := h.unmap 0x3ffffff 2 (by decide) fun k hk =>
      page_managed (by omega) (by omega)
    obtain rfl : false = b := Option.some.inj (hquery.symm.trans hb)
    -- both pages are free
    have : false = true := hiff.mpr (by
      intro k hk x hx
      unfold PAGE_SIZE at hx
      rw [hlist]
      exact page_left_free (by omega) (by omega))
    cases this
  · obtain ⟨w, vm', hw, ⟨ds, hlist⟩, hfind⟩ : ∃ w vm',
        (address_space arm64_layout).Reach (fun _ _ => True) w ∧
        (∃ ds, w.vm.vma_list = ⟨.VMA_UNMAP, 0x400000, 0x4000000800⟩ :: ds) ∧
        find_vma w.vm 0x3fffc00800 = some (vm', none) :=
      ⟨_, _, .step (.step .init trivial one_page_exec) (l := grow_by_move 0x800) trivial rfl,
        ⟨_, rfl⟩, rfl⟩
    refine ⟨w, vm', hw, hfind, ?_⟩
    intro h
    -- the free area has exactly this many bytes, and the search rounds the number up
    refine h.found 0x3fffc00800 vm' (by decide) hfind ⟨0x400000, ?_⟩
    intro x hlo hhi
    refine ⟨page_managed (by unfold PAGE_SIZE; omega) (by unfold PAGE_SIZE; omega), ?_⟩
    rw [hlist]
    unfold typeAt lookup
    rw [owner_cons, if_pos ⟨hlo, by simp only; omega⟩]
    rfl

end Umeq.Memory
