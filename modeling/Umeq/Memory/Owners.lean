import Umeq.Memory.Cursor

/-! # Every lookup of `insert_area` finds an owner

    `find_address_owner` is fatal for an address that no descriptor owns, and
    `insert_area` looks up the excluded end of a request too. The guest gives some of
    these addresses; the others are found by the searches of the code. The latter
    always have an owner: a free descriptor is followed by one that touches it, because
    `mmap_init` ends the space with a block that no request can take away.

    On arm the space has two parts with a gap between them. Neighbours may leave a gap
    only between a mapped descriptor and a free one (`Joins`).
-/

namespace Umeq.Memory

open Intervals

/-! ## Lists that cover the space -/

/-- The descriptors touch, or there is a gap between a mapped one and a free one. -/
def Joins (d d' : vma_desc) : Prop :=
  d.end_addr = d'.start_addr ∨
    d.start_addr < d.end_addr ∧ d.type = .VMA_MAP ∧ d'.type = .VMA_UNMAP

theorem joins_compatible : Compatible Joins where
  touch := fun _ h => .inl h
  left := by
    rintro d d' c (h | ⟨-, hd, hc⟩) ht he hlt
    · exact .inl (he.trans h)
    · exact .inr ⟨hlt, ht.trans hd, hc⟩
  right := by
    rintro d c c' (h | ⟨hlt, hd, hc⟩) ht hs
    · exact .inl (h.trans hs.symm)
    · exact .inr ⟨hlt, hd, ht.trans hc⟩
  flip_left := by
    rintro d d' c (h | ⟨-, hd, hc⟩) ht he hlt
    · exact .inl (he.trans h)
    · rw [hc] at ht
      exact .inr ⟨hlt, ((d'.type.eq_other_iff .VMA_UNMAP).mpr ht), hc⟩
  flip_right := by
    rintro d c c' (h | ⟨-, hd, hc⟩) ht _ hs
    · exact .inl (h.trans hs.symm)
    · rw [hd, hc] at ht
      cases ht

/-- The first byte of the space. -/
def target.bottom : target → Nat
  | .arm64 => 0x400000
  | .arm => 0x8000

/-- The first byte past the space. -/
def target.top : target → Nat
  | .arm64 => 0x7000001000
  | .arm => 0xffff1001

/-- The addresses that `mmap_init` gives an owner. -/
def target.space : target → Nat → Prop
  | .arm64, x => 0x400000 ≤ x ∧ x < 0x7000001000
  | .arm, x => (0x8000 ≤ x ∧ x < 0x80001000) ∨ (0xffff0000 ≤ x ∧ x < 0xffff1001)

/-- Some descriptor owns the address. -/
def Owned (l : List vma_desc) (x : Nat) : Prop := ∃ d ∈ l, owns x d = true

theorem owned_iff (l : List vma_desc) (x : Nat) : Owned l x ↔ ∃ v, typeAt l x = some v := by
  constructor
  · rintro ⟨d, hd, hown⟩
    by_contra hnone
    have : typeAt l x = none := by
      cases h : typeAt l x with
      | none => rfl
      | some v => exact absurd ⟨v, h⟩ hnone
    exact lookup_none_iff.mp this d hd ((owns_iff x d).mp hown)
  · rintro ⟨v, hv⟩
    obtain ⟨d, hd, hcov, -⟩ := lookup_some hv
    exact ⟨d, hd, (owns_iff x d).mpr hcov⟩

theorem owned_iff_find (l : List vma_desc) (x : Nat) :
    Owned l x ↔ (find_address_owner l x).isSome = true := by
  unfold Owned find_address_owner find_address_owner_without_assert
  simp

/-- The space is covered, and stays so: see `Joins`. The last byte keeps its type. -/
structure Sealed (T : target) (l : List vma_desc) : Prop where
  ordered : Ordered l
  joins : l.IsChain Joins
  free_aligned : ∀ d ∈ l, d.type = .VMA_UNMAP → Aligned d.start_addr
  bounds : BoundsIn (fun x => T.bottom ≤ x ∧ x < T.top) (· ≤ T.top) l
  covers : ∀ x, T.space x → Owned l x
  last : typeAt l (T.top - 1) = typeAt T.layout.vma_init (T.top - 1)

section sealed

variable {T : target} {l : List vma_desc} {s e x : Nat} {t : vma_type} {u : area_update}

theorem top_le (T : target) : T.top ≤ TASK_SIZE := by
  cases T <;> decide

theorem Sealed.lt_top (h : Sealed T l) (hx : Owned l x) : T.bottom ≤ x ∧ x < T.top := by
  obtain ⟨d, hd, hown⟩ := hx
  have := h.bounds d hd
  simp only [owns, decide_eq_true_eq] at hown
  omega

/-- After a free descriptor, or an empty one, the list goes on where that one ends. -/
theorem next_owns {d : vma_desc} {post : List vma_desc} (hl : Ordered (d :: post))
    (hch : (d :: post).IsChain Joins) (hd : d.type = .VMA_UNMAP ∨ d.start_addr = d.end_addr)
    (hmore : ∃ g ∈ post, d.end_addr < g.end_addr) : Owned post d.end_addr := by
  induction post generalizing d with
  | nil => simp at hmore
  | cons d' post ih =>
    obtain ⟨hjoin, hch'⟩ := List.isChain_cons_cons.mp hch
    have htouch : d.end_addr = d'.start_addr := by
      rcases hjoin with htouch | ⟨hlt, hmap, -⟩
      · exact htouch
      · rcases hd with hfree | hempty
        · rw [hmap] at hfree
          cases hfree
        · omega
    have hl' := (apart_cons.mp hl).2.2
    have hle := (apart_cons.mp hl').1
    by_cases hlt : d'.start_addr < d'.end_addr
    · refine ⟨d', List.mem_cons_self, ?_⟩
      simp only [owns, decide_eq_true_eq]
      omega
    · obtain ⟨g, hg, hend⟩ := hmore
      have hmem : g ∈ post := by
        rcases List.mem_cons.mp hg with rfl | hmem
        · omega
        · exact hmem
      obtain ⟨c, hc, hown⟩ := ih hl' hch' (.inr (by omega)) ⟨g, hmem, by omega⟩
      refine ⟨c, List.mem_cons_of_mem _ hc, ?_⟩
      rw [show d.end_addr = d'.end_addr by omega]
      exact hown

/-- Every page boundary of a free descriptor has an owner, its end too. -/
theorem Sealed.free_owned (h : Sealed T l) {d : vma_desc} (hd : d ∈ l)
    (hfree : d.type = .VMA_UNMAP) (hx : Aligned x) (hlo : d.start_addr ≤ x)
    (hhi : x ≤ d.end_addr) : Owned l x := by
  by_cases hlt : x < d.end_addr
  · refine ⟨d, hd, ?_⟩
    simp only [owns, decide_eq_true_eq]
    omega
  obtain rfl : x = d.end_addr := by omega
  have hbounds := h.bounds d hd
  obtain ⟨g, hg, hown⟩ : Owned l (T.top - 1) := by
    refine h.covers _ ?_
    cases T <;> simp [target.space, target.top]
  simp only [owns, decide_eq_true_eq] at hown
  by_cases hend : d.end_addr < T.top
  · -- the owner of the last byte comes after `d`
    obtain ⟨pre, post, rfl⟩ := List.append_of_mem hd
    obtain ⟨-, hpost, hsep⟩ := apart_append.mp h.ordered
    have hmem : g ∈ post := by
      simp only [List.mem_append, List.mem_cons] at hg
      rcases hg with hg | rfl | hg
      · have := hsep g hg d (by simp)
        have := (apart_cons.mp hpost).1
        omega
      · omega
      · exact hg
    have hch := (List.isChain_append.mp h.joins).2.1
    obtain ⟨c, hc, hown⟩ := next_owns hpost hch (.inl hfree) ⟨g, hmem, by omega⟩
    exact ⟨c, by simp [hc], hown⟩
  · -- on arm64 the last byte is mapped, on arm the end of the space is no page boundary
    have htop : d.end_addr = T.top := by omega
    cases T with
    | arm64 =>
      have hcov : Covers vma_desc.start_addr vma_desc.end_addr d (target.arm64.top - 1) := by
        unfold Covers
        omega
      have htype := h.ordered.lookup_eq vma_desc.type hd hcov
      have hlast := h.last
      unfold typeAt at hlast
      rw [htype, hfree] at hlast
      exact absurd hlast (by decide)
    | arm =>
      rw [htop] at hx
      exact absurd hx (by decide)

/-- The descriptors of the new list. -/
theorem insert_area_mem (hl : Ordered l) (h : insert_area l s e t = some u)
    {d : vma_desc} (hd : d ∈ u.vma_list) :
    (∃ c ∈ l, d.type = c.type ∧ d.start_addr = c.start_addr) ∨
      (d.type = t ∧ d.start_addr = s) ∨ (d.type ≠ t ∧ d.start_addr = e) := by
  rcases Nat.lt_or_ge s e with hse | hes
  swap
  · obtain ⟨pre, f, post, rfl, -, -, ⟨-, hr⟩ | ⟨-, hr⟩⟩ := insert_area_back hl hes h <;> rw [hr] at hd
    · exact .inl ⟨d, hd, rfl, rfl⟩
    · simp only [List.mem_append] at hd
      rcases hd with hd | hd | hd
      · exact .inl ⟨d, by simp [hd], rfl, rfl⟩
      · unfold cut_at at hd
        split at hd <;> simp only [List.mem_cons, List.not_mem_nil, or_false] at hd
        · obtain rfl := hd
          exact .inr (.inl ⟨rfl, rfl⟩)
        · rcases hd with rfl | rfl
          · exact .inl ⟨f, by simp, rfl, rfl⟩
          · exact .inr (.inl ⟨rfl, rfl⟩)
      · exact .inl ⟨d, by simp [hd], rfl, rfl⟩
  -- the fixup keeps the type and the start of the descriptor that it extends
  have hmerge : ∀ {v : area_update}, Ordered v.vma_list → merge_prev s t v = some u →
      ∃ c ∈ v.vma_list, d.type = c.type ∧ d.start_addr = c.start_addr := by
    intro v hv hm
    rcases merge_prev_cases hv hm with rfl | ⟨pre, p, c, post, heq, -, -, rfl⟩
    · exact ⟨d, hd, rfl, rfl⟩
    · rw [heq]
      simp only [List.mem_append, List.mem_cons] at hd
      rcases hd with hd | rfl | hd
      · exact ⟨d, by simp [hd], rfl, rfl⟩
      · exact ⟨p, by simp, rfl, rfl⟩
      · exact ⟨d, by simp [hd], rfl, rfl⟩
  obtain ⟨hs, he⟩ := insert_area_owned h
  rcases owners_split hl (Nat.le_of_lt hse) hs he with ⟨pre, f, post, rfl, hs, he⟩ |
    ⟨pre, f, mid, g, post, rfl, hs, he⟩
  · obtain ⟨taken, heq⟩ := insert_area_single (t := t) hl hs he
    rw [heq] at h
    split_ifs at h with ht
    · obtain rfl := Option.some.inj h
      exact .inl ⟨d, hd, rfl, rfl⟩
    · obtain ⟨c, hc, htype, hstart⟩ :=
        hmerge (ordered_split_single hl hs he (Nat.le_of_lt hse)) h
      rw [htype, hstart]
      simp only [List.mem_append] at hc
      rcases hc with hc | hc | hc
      · exact .inl ⟨c, by simp [hc], rfl, rfl⟩
      · unfold split_single at hc
        split at hc <;> simp only [List.mem_cons, List.not_mem_nil, or_false] at hc
        · rcases hc with rfl | rfl
          · exact .inr (.inl ⟨rfl, rfl⟩)
          · exact .inr (.inr ⟨ht, rfl⟩)
        · rcases hc with rfl | rfl | rfl
          · exact .inl ⟨f, by simp, rfl, rfl⟩
          · exact .inr (.inl ⟨rfl, rfl⟩)
          · exact .inr (.inr ⟨t.other_ne, rfl⟩)
      · exact .inl ⟨c, by simp [hc], rfl, rfl⟩
  · obtain ⟨taken, released, heq⟩ := insert_area_span (t := t) hl hs he
    rw [heq] at h
    have hshape : pre ++ f :: (mid ++ g :: post) = pre ++ (f :: (mid ++ [g]) ++ post) := by simp
    obtain ⟨c, hc, htype, hstart⟩ := hmerge (ordered_split_span (hshape ▸ hl) hs he) h
    rw [htype, hstart]
    simp only [List.mem_append] at hc
    rcases hc with hc | hc | hc
    · exact .inl ⟨c, by simp [hc], rfl, rfl⟩
    · obtain ⟨kept, m, tail, heq, hkept, htail⟩ := split_span_cases s e t f g mid
      rw [heq, List.mem_append] at hc
      have hnew : ∀ n, c = ⟨t, m, n⟩ →
          (∃ c' ∈ pre ++ f :: (mid ++ g :: post), c.type = c'.type ∧ c.start_addr = c'.start_addr) ∨
            (c.type = t ∧ c.start_addr = s) ∨ (c.type ≠ t ∧ c.start_addr = e) := by
        rintro n rfl
        rcases hkept with ⟨hft, -, rfl⟩ | ⟨-, -, rfl⟩
        · exact .inl ⟨f, by simp, hft.symm, rfl⟩
        · exact .inr (.inl ⟨rfl, rfl⟩)
      rcases hc with hc | hc
      · rcases hkept with ⟨-, rfl, -⟩ | ⟨-, rfl, -⟩
        · cases hc
        · rw [List.mem_singleton.mp hc]
          exact .inl ⟨f, by simp, rfl, rfl⟩
      · rcases htail with ⟨-, rfl⟩ | ⟨-, -, rfl⟩ | ⟨hgt, -, rfl⟩
        · exact hnew _ (List.mem_singleton.mp hc)
        · simp only [List.mem_cons, List.not_mem_nil, or_false] at hc
          rcases hc with hc | rfl
          · exact hnew _ hc
          · exact .inl ⟨c, by simp, rfl, rfl⟩
        · simp only [List.mem_cons, List.not_mem_nil, or_false] at hc
          rcases hc with hc | rfl
          · exact hnew _ hc
          · exact .inr (.inr ⟨hgt, rfl⟩)
    · exact .inl ⟨c, by simp [hc], rfl, rfl⟩

/-- What is owned stays owned, and the list stays sealed. -/
theorem Sealed.insert (h : Sealed T l) (hse : s < e) (hs : t = .VMA_UNMAP → Aligned s)
    (he : t = .VMA_MAP → Aligned e) (hu : insert_area l s e t = some u) :
    Sealed T u.vma_list ∧ ∀ x, Owned l x → Owned u.vma_list x := by
  have hret := insert_area_some h.ordered hse hu
  obtain ⟨hos, hoe⟩ := insert_area_owned hu
  have hbs := h.lt_top hos
  have hbe := h.lt_top hoe
  have hmono : ∀ x, Owned l x → Owned u.vma_list x := by
    intro x hx
    obtain ⟨v, hv⟩ := (owned_iff l x).mp hx
    exact (owned_iff _ x).mpr ⟨_, hret.agree x v hv⟩
  refine ⟨⟨hret.ordered, insert_area_chain joins_compatible h.ordered h.joins hse hu, ?_, ?_, ?_, ?_⟩,
    hmono⟩
  · intro d hd hfree
    rcases insert_area_mem h.ordered hu hd with ⟨c, hc, htype, hstart⟩ | ⟨htype, hstart⟩ |
      ⟨htype, hstart⟩
    · rw [hstart]
      exact h.free_aligned c hc (htype ▸ hfree)
    · rw [hstart]
      exact hs (htype ▸ hfree)
    · rw [hstart]
      rw [hfree] at htype
      exact he ((t.eq_other_iff .VMA_UNMAP).mpr (Ne.symm htype))
  · exact hret.bounds _ _ hbs hbe (Nat.le_of_lt hbs.2) (Nat.le_of_lt hbe.2) h.bounds
  · exact fun x hx => hmono x (h.covers x hx)
  · obtain ⟨v, hv⟩ : ∃ v, typeAt l (T.top - 1) = some v := by
      refine (owned_iff l _).mp (h.covers _ ?_)
      cases T <;> simp [target.space, target.top]
    -- a request ends before the last byte
    rw [hret.agree _ v hv, if_neg (by omega), ← hv]
    exact h.last

/-- Both ends have an owner: the three lookups succeed. -/
theorem Sealed.insert_isSome (h : Sealed T l) (hse : s < e) (hs : Owned l s) (he : Owned l e) :
    (insert_area l s e t).isSome = true := by
  obtain ⟨r, hr, -⟩ := insert_area_retypes (t := t) h.ordered (Nat.le_of_lt hse) hs he (.inl hse)
  rw [hr]
  rfl

end sealed

/-! ## Requests in a row -/

/-- Both ends of the request have an owner, and it cannot spoil the list. -/
structure request.Sound (q : request) : Prop where
  lt : q.start_addr < q.end_addr
  start_owned : Owned q.vm.vma_list q.start_addr
  end_owned : Owned q.vm.vma_list q.end_addr
  start_aligned : q.type = .VMA_UNMAP → Aligned q.start_addr
  end_aligned : q.type = .VMA_MAP → Aligned q.end_addr

/-- The lookups of `insert_area` find their owners. -/
def request.answered (q : request) : Prop :=
  (insert_area q.vm.vma_list q.start_addr q.end_addr q.type).isSome = true

/-- What has an owner keeps one. -/
def Grows (l l' : List vma_desc) : Prop := ∀ x, Owned l x → Owned l' x

theorem Sealed.made {T : target} {q : request} {vm : mmap_state}
    (h : Sealed T q.vm.vma_list) (hq : q.Sound) (hmade : q.made = some vm) :
    Sealed T vm.vma_list ∧ Grows q.vm.vma_list vm.vma_list := by
  obtain ⟨u, hu, hlist, -⟩ := insert_spec hmade
  rw [hlist]
  exact h.insert hq.lt hq.start_aligned hq.end_aligned hu

/-- A run of sound requests. Their soundness may rely on what is owned at the start. -/
theorem Trace.sealed {T : target} {vm : mmap_state} {qs : List request} {r : Option mmap_state}
    (ht : Trace vm qs r) (h : Sealed T vm.vma_list)
    (hq : ∀ q ∈ qs, Grows vm.vma_list q.vm.vma_list → q.Sound) :
    (∀ q ∈ qs, q.answered) ∧
      ∀ vm', r = some vm' → Sealed T vm'.vma_list ∧ Grows vm.vma_list vm'.vma_list := by
  induction ht with
  | done hd =>
    refine ⟨by simp, ?_⟩
    rintro vm' hvm
    obtain rfl := Option.some.inj hvm
    rw [hd.vma_list]
    exact ⟨h, fun x hx => hx⟩
  | stop => simp
  | @ask vm vm₁ q qs r hu hmade _ ih =>
    have hqs : Sealed T q.vm.vma_list := by
      rw [hu.vma_list]
      exact h
    have hfirst : q.Sound := by
      refine hq q List.mem_cons_self ?_
      rw [hu.vma_list]
      exact fun x hx => hx
    obtain ⟨hsealed, hgrows⟩ := hqs.made hfirst hmade
    rw [hu.vma_list] at hgrows
    obtain ⟨hall, hlast⟩ := ih hsealed
      fun q' hq' hg => hq q' (List.mem_cons_of_mem _ hq') fun x hx => hg x (hgrows x hx)
    refine ⟨?_, ?_⟩
    · intro q' hq'
      rcases List.mem_cons.mp hq' with rfl | hq'
      · exact hqs.insert_isSome hfirst.lt hfirst.start_owned hfirst.end_owned
      · exact hall q' hq'
    · intro vm' hvm
      obtain ⟨hs, hg⟩ := hlast vm' hvm
      exact ⟨hs, fun x hx => hg x (hgrows x hx)⟩
  | @fail vm q hu hmade =>
    refine ⟨?_, by simp⟩
    intro q' hq'
    obtain rfl := List.mem_singleton.mp hq'
    have hfirst : q'.Sound := by
      refine hq q' List.mem_cons_self ?_
      rw [hu.vma_list]
      exact fun x hx => hx
    have hqs : Sealed T q'.vm.vma_list := by
      rw [hu.vma_list]
      exact h
    exact hqs.insert_isSome hfirst.lt hfirst.start_owned hfirst.end_owned

/-! ## Areas that the searches find -/

/-- A range of pages whose two ends have an owner. -/
structure Available (l : List vma_desc) (start n : Nat) : Prop where
  start_aligned : Aligned start
  size_aligned : Aligned n
  pos : 0 < n
  limit : start + n ≤ TASK_SIZE
  start_owned : Owned l start
  end_owned : Owned l (start + n)

section searches

variable {T : target} {L : layout} {l : List vma_desc} {s vm' : mmap_state} {q : request}
  {start n length hint : Nat}

theorem aligned_up (a : Nat) : Aligned (PAGE_ALIGN_UP a) := aligned_down _

/-- The request for a range and the one that gives it back. -/
theorem Available.sound (h : Available l start n) (vm : mmap_state) (hvm : Grows l vm.vma_list)
    (t : vma_type) : request.Sound ⟨vm, start, start + n, t⟩ where
  lt := Nat.lt_add_of_pos_right h.pos
  start_owned := hvm _ h.start_owned
  end_owned := hvm _ h.end_owned
  start_aligned := fun _ => h.start_aligned
  end_aligned := fun _ => h.start_aligned.add h.size_aligned

theorem Sealed.available (h : Sealed T l) {d : vma_desc} (hd : d ∈ l)
    (hfree : d.type = .VMA_UNMAP) (hstart : Aligned start) (hn : Aligned n) (hpos : 0 < n)
    (hlo : d.start_addr ≤ start) (hhi : start + n ≤ d.end_addr) : Available l start n where
  start_aligned := hstart
  size_aligned := hn
  pos := hpos
  limit := by
    have := (h.bounds d hd).2
    have := top_le T
    omega
  start_owned := h.free_owned hd hfree hstart hlo (by omega)
  end_owned := h.free_owned hd hfree (hstart.add hn) (by omega) hhi

/-- The request takes an available range of `n` bytes. -/
structure Takes (l : List vma_desc) (n : Nat) (q : request) : Prop where
  vma_list : q.vm.vma_list = l
  available : Available l q.start_addr n
  end_addr : q.end_addr = q.start_addr + n
  type : q.type = .VMA_MAP

theorem Takes.sound (h : Takes l n q) : q.Sound := by
  have := h.available.sound q.vm (by rw [h.vma_list]; exact fun x hx => hx) q.type
  rwa [← h.end_addr] at this

theorem find_vma_takes (h : Sealed T s.vma_list) (hpos : 0 < PAGE_ALIGN_UP length)
    (hq : find_vma_request s length = some q) : Takes s.vma_list (PAGE_ALIGN_UP length) q := by
  unfold find_vma_request at hq
  obtain ⟨desc, hfind, rfl⟩ := Option.map_eq_some_iff.mp hq
  have hmem := List.mem_of_find?_eq_some hfind
  obtain ⟨hfree, hsize⟩ : desc.type = .VMA_UNMAP ∧
      sub64 desc.end_addr desc.start_addr ≥ PAGE_ALIGN_UP length := by
    simpa using List.find?_some hfind
  have hdl := (h.bounds desc hmem).2
  have htop := top_le T
  have hle := h.ordered.1 desc hmem
  rw [sub64_eq hle (by omega)] at hsize
  refine ⟨rfl, ?_, add64_eq (by omega) (by omega), rfl⟩
  exact h.available hmem hfree (h.free_aligned desc hmem hfree) (aligned_up length) hpos
    (Nat.le_refl _) (by simp only; omega)

theorem hint_takes (h : Sealed T s.vma_list) (hpos : 0 < PAGE_ALIGN_UP length)
    (hwrap : PAGE_ALIGN_DOWN hint + PAGE_ALIGN_UP length < 2 ^ 64)
    (hq : hint_request s length hint = some q) :
    Takes s.vma_list (PAGE_ALIGN_UP length) q := by
  by_cases hfits : hint_fits s length hint
  · rw [hint_request_fits h.ordered hfits] at hq
    obtain rfl := Option.some.inj hq
    obtain ⟨d, hmem, hown, hfree, hfit⟩ := hfits
    simp only [owns, decide_eq_true_eq] at hown
    have hend : PAGE_ALIGN_UP (add64 (PAGE_ALIGN_DOWN hint) (PAGE_ALIGN_UP length)) =
        PAGE_ALIGN_DOWN hint + PAGE_ALIGN_UP length := by
      unfold PAGE_ALIGN_UP PAGE_ALIGN_DOWN add64 PAGE_SIZE at *
      omega
    rw [hend] at hfit
    exact ⟨rfl, h.available hmem hfree (aligned_down hint) (aligned_up length) hpos hown.1 hfit,
      hend, rfl⟩
  · rw [hint_request_misses hfits] at hq
    have := find_vma_takes h (by rwa [PAGE_ALIGN_UP_up]) hq
    rwa [PAGE_ALIGN_UP_up] at this

/-- The cursor is on a page that has an owner. -/
def CursorIn (l : List vma_desc) (c : Nat) : Prop := Aligned c ∧ Owned l c

theorem start_cursor (h : Sealed T l) : CursorIn l T.layout.KERNEL_CHOOSE_START_ADDR := by
  refine ⟨(target_cursor_ok T).1, h.covers _ ?_⟩
  cases T <;> simp [target.space, target.layout, arm64_layout, arm_layout]

/-- The area ends on a page boundary below the last page, so rounding its end up to 64K
    on arm64 leads at most to that page. -/
theorem next_cursor_cases (T : target) (hstart : Aligned start) (hn : Aligned n)
    (hlo : T.bottom ≤ start + n) (hhi : start + n < T.top) :
    next_cursor T.layout start n = start + n ∨ T.space (next_cursor T.layout start n) := by
  have htop := top_le T
  have hadd := add64_eq (show start ≤ TASK_SIZE by omega) (show n ≤ TASK_SIZE by omega)
  unfold next_cursor
  cases T with
  | arm => exact .inl hadd
  | arm64 =>
    right
    rw [show target.arm64.layout.FORCE_ALIGNMENT = some (64 * 1024) from rfl, hadd]
    simp only [target.space, target.top, target.bottom, Aligned, PAGE_SIZE, add64] at *
    omega

theorem next_cursor_in (h : Sealed T l) (ha : Available l start n) :
    CursorIn l (next_cursor T.layout start n) := by
  have hend := h.lt_top ha.end_owned
  refine ⟨next_cursor_aligned (target_cursor_ok T) ha.start_aligned ha.size_aligned, ?_⟩
  rcases next_cursor_cases T ha.start_aligned ha.size_aligned hend.1 hend.2 with heq | hspace
  · rw [heq]
    exact ha.end_owned
  · exact h.covers _ hspace

theorem choose_takes (h : Sealed T s.vma_list) (hc : CursorIn s.vma_list s.kernel_cursor)
    (hpos : 0 < PAGE_ALIGN_UP length) (hq : choose_request L s length = some q) :
    Takes s.vma_list (PAGE_ALIGN_UP length) q := by
  obtain ⟨i, hi, hq⟩ := Option.bind_eq_some_iff.mp hq
  simp only at hq
  split at hq
  · -- nothing above the cursor: the whole list is searched, with the same rounded length
    have h' : Sealed T { s with
        is_end_of_vm_reach := true
        kernel_cursor := L.KERNEL_CHOOSE_START_ADDR }.vma_list := h
    have htakes := find_vma_takes h' (by rwa [PAGE_ALIGN_UP_up]) hq
    rw [PAGE_ALIGN_UP_up] at htakes
    exact htakes
  · next desc hfind =>
    obtain rfl := Option.some.inj hq
    have hdrop := List.mem_of_find?_eq_some hfind
    have hmem := List.mem_of_mem_drop hdrop
    obtain ⟨hfree, hsize⟩ : desc.type = .VMA_UNMAP ∧ sub64 desc.end_addr
        (choose_start s.kernel_cursor desc) ≥ PAGE_ALIGN_UP length := by
      simpa using List.find?_some hfind
    have hcur := cursor_le_end h.ordered hi hdrop
    have hdle := h.ordered.1 desc hmem
    have hdl := (h.bounds desc hmem).2
    have htop := top_le T
    have hstart : Aligned (choose_start s.kernel_cursor desc) := by
      unfold choose_start
      split_ifs
      · exact h.free_aligned desc hmem hfree
      · exact hc.1
    have hlo : desc.start_addr ≤ choose_start s.kernel_cursor desc ∧
        choose_start s.kernel_cursor desc ≤ desc.end_addr := by
      unfold choose_start
      split_ifs <;> omega
    rw [sub64_eq hlo.2 (by omega)] at hsize
    exact ⟨rfl, h.available hmem hfree hstart (aligned_up length) hpos hlo.1
      (by simp only; omega), add64_eq (by omega) (by omega), rfl⟩

theorem choose_result {r : Option Nat} (h : Sealed T s.vma_list)
    (hc : CursorIn s.vma_list s.kernel_cursor) (hpos : 0 < PAGE_ALIGN_UP length)
    (hf : find_vma_with_kernel_choose T.layout s length = some (vm', r)) :
    r = (choose_request T.layout s length).map (·.start_addr) ∧
      CursorIn s.vma_list vm'.kernel_cursor ∧ vm'.shmat_list = s.shmat_list := by
  obtain ⟨hr, hshm, -, hmoved⟩ := choose_moved hf
  refine ⟨hr, ?_, hshm⟩
  cases hmoved with
  | behind _ _ hcur =>
    rw [hcur]
    obtain ⟨q, hq, rfl⟩ := Option.map_eq_some_iff.mp hr.symm
    exact next_cursor_in h (choose_takes h hc hpos hq).available
  | back _ hcur =>
    rw [hcur]
    exact start_cursor h

end searches

end Umeq.Memory
