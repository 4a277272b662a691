import Umeq.Memory.Owners

/-! # What the three searches hand out

    `find_vma`, `find_vma_with_kernel_choose` and `find_vma_with_hint` look for a free area in the
    list and mark it with one request to `insert_area`. Nothing tests that the rounded length is
    not 0, although `insert_area` does not leave an empty request empty, and nothing tests that
    the end of a hinted area has not wrapped around.

    * `HandsOut`: the area was free and is now mapped, and nothing else has changed.
    * `FreeAligned`, `FreeRoom`: the lists for which only the length and the addresses asked for
      matter, `CursorFits` and `HintEnds`. The calls keep `FreeAligned` and the cursor on a page
      boundary, but not `FreeRoom`.
-/

namespace Umeq.Memory

open Intervals

/-! ## Areas -/

/-- The descriptors cover the space of the target and nothing else, in order. -/
structure Tiling (T : target) (l : List vma_desc) : Prop where
  ordered : Ordered l
  bounds : BoundsIn (T.bottom ≤ ·) (· ≤ T.top) l
  owned : ∀ x, Owned l x ↔ T.space x

/-- The `n` bytes at `r` were free and are mapped, and every other address keeps its type. -/
structure HandsOut (s s' : mmap_state) (n r : Nat) : Prop where
  aligned : Aligned r
  was_free : ∀ x, r ≤ x → x < r + n → typeAt s.vma_list x = some .VMA_UNMAP
  now_mapped : ∀ x, r ≤ x → x < r + n → typeAt s'.vma_list x = some .VMA_MAP
  others : ∀ x v, ¬ (r ≤ x ∧ x < r + n) → typeAt s.vma_list x = some v →
    typeAt s'.vma_list x = some v
  cursor : Owned s'.vma_list s'.kernel_cursor

/-- The area is on a page boundary, and it is not empty unless it lies in a mapped descriptor. -/
def exact_area (l : List vma_desc) (n start : Nat) : Prop :=
  Aligned start ∧ (0 < n ∨ typeAt l start = some .VMA_MAP)

/-- `P` holds of the start of the first free descriptor with room for `n` bytes. -/
def find_vma_at (l : List vma_desc) (n : Nat) (P : Nat → Prop) : Prop :=
  ∀ d, l.find? (fun desc => decide (desc.type = .VMA_UNMAP ∧
    sub64 desc.end_addr desc.start_addr ≥ n)) = some d → P d.start_addr

/-- `P` holds of the place above the cursor in the first free descriptor with room there or, when
    there is none, as for `find_vma_at`. -/
def choose_at (s : mmap_state) (n : Nat) (P : Nat → Prop) : Prop :=
  ∀ i, find_address_owner s.vma_list s.kernel_cursor = some i →
    match (s.vma_list.drop i).find? (fun desc => decide (desc.type = .VMA_UNMAP ∧
      sub64 desc.end_addr (choose_start s.kernel_cursor desc) ≥ n)) with
    | some d => P (choose_start s.kernel_cursor d)
    | none => find_vma_at s.vma_list n P

/-- Free areas begin on a page boundary. -/
def FreeAligned (l : List vma_desc) : Prop :=
  ∀ d ∈ l, d.type = .VMA_UNMAP → Aligned d.start_addr

/-- No descriptor of a free area is empty. -/
def FreeRoom (l : List vma_desc) : Prop :=
  ∀ d ∈ l, d.type = .VMA_UNMAP → d.start_addr < d.end_addr

/-- The cursor is on a page boundary, unless it lies in a mapped area or with less than `n` free
    bytes above it. -/
def CursorFits (s : mmap_state) (n : Nat) : Prop :=
  ∀ d ∈ s.vma_list, owns s.kernel_cursor d = true → d.type = .VMA_UNMAP →
    s.kernel_cursor + n ≤ d.end_addr → Aligned s.kernel_cursor

/-- The `n` bytes at a hint in a free area do not wrap around. -/
def HintEnds (l : List vma_desc) (n hint_addr : Nat) : Prop :=
  ∀ d ∈ l, owns (PAGE_ALIGN_DOWN hint_addr) d = true → d.type = .VMA_UNMAP →
    PAGE_ALIGN_DOWN hint_addr + n < 2 ^ 64

section tiling

variable {T : target} {l : List vma_desc} {x : Nat}

theorem Tiling.orderly (h : Tiling T l) : Orderly l := by
  refine ⟨h.ordered, ?_⟩
  intro d hd
  have htop := top_le T
  have hle := h.ordered.1 d hd
  have hend := (h.bounds d hd).2
  simp only at hend ⊢
  omega

theorem Tiling.inside (h : Tiling T l) (hx : Owned l x) : T.bottom ≤ x ∧ x < T.top := by
  have hspace := (h.owned x).mp hx
  cases T <;> simp only [target.space, target.bottom, target.top] at hspace ⊢ <;> omega

theorem Tiling.start_owned (h : Tiling T l) : Owned l T.layout.KERNEL_CHOOSE_START_ADDR := by
  refine (h.owned _).mpr ?_
  cases T <;> simp [target.space, target.layout, arm64_layout, arm_layout]

end tiling

/-! ## One request -/

section requests

variable {T : target} {l : List vma_desc} {s s' : mmap_state} {q : request} {n length hint : Nat}

/-- What is owned stays owned. -/
theorem insert_grows {a b : Nat} {t : vma_type} {u : area_update} (hl : Ordered l)
    (h : insert_area l a b t = some u) : Grows l u.vma_list := by
  intro x hx
  obtain ⟨v, hv⟩ := (owned_iff l x).mp hx
  refine (owned_iff _ x).mpr ?_
  rcases insert_area_cases hl h with ⟨-, hret⟩ | ⟨-, -, heq⟩ | ⟨-, -, d, -, -, -, -, hret⟩
  · exact ⟨_, hret.agree x v hv⟩
  · rw [heq]
    exact ⟨v, hv⟩
  · exact ⟨_, hret.agree x v hv⟩

/-- The state after a search that has made the request `q`. -/
def Marked (s s' : mmap_state) (q : request) : Prop :=
  ∃ u, insert_area s.vma_list q.start_addr q.end_addr .VMA_MAP = some u ∧
    s'.vma_list = u.vma_list

theorem Trace.marked (ht : Trace s [q] (some s')) (hvm : q.vm.vma_list = s.vma_list)
    (htype : q.type = .VMA_MAP) : Marked s s' q := by
  obtain ⟨v, hmade, hlist⟩ := ht.single
  obtain ⟨u, hu, huv, -⟩ := insert_spec hmade
  rw [hvm, htype] at hu
  exact ⟨u, hu, hlist.trans huv⟩

theorem Marked.grows (h : Marked s s' q) (hl : Ordered s.vma_list) :
    Grows s.vma_list s'.vma_list := by
  obtain ⟨u, hu, hlist⟩ := h
  rw [hlist]
  exact insert_grows hl hu

/-- The request of a search hands out its area exactly when it is not empty, or in vain. -/
theorem hands_out_iff (hl : Orderly s.vma_list) (hq : Fills s.vma_list n q)
    (hm : Marked s s' q) (hcur : Aligned q.start_addr → Owned s'.vma_list s'.kernel_cursor) :
    HandsOut s s' n q.start_addr ↔ exact_area s.vma_list n q.start_addr := by
  obtain ⟨u, hu, hlist⟩ := hm
  have hend := hq.end_addr
  constructor
  · intro h
    refine ⟨h.aligned, ?_⟩
    by_contra hcon
    push Not at hcon
    obtain ⟨v, hv⟩ := (owned_iff _ _).mp (insert_area_owned hu).1
    -- an empty request in a free descriptor maps the rest of it
    have hafter := h.others _ v (by omega) hv
    rw [hlist] at hafter
    rcases insert_area_cases hl.ordered hu with ⟨hlt, -⟩ | ⟨-, hmap, -⟩ |
      ⟨-, -, d, -, hown, -, -, hret⟩
    · omega
    · exact hcon.2 hmap
    · simp only [owns, decide_eq_true_eq] at hown
      have := hret.agree _ v hv
      rw [if_pos (by omega), hafter] at this
      rw [this] at hv
      exact hcon.2 hv
  · rintro ⟨hal, hne⟩
    have hfree := fun x => hq.range.free hl.ordered (x := x)
    rcases insert_area_cases hl.ordered hu with ⟨hlt, hret⟩ | ⟨hle, -, heq⟩ |
      ⟨hle, hnot, d, -, -, -, -, hret⟩
    · refine ⟨hal, hfree, ?_, ?_, hcur hal⟩
      · intro x hlo hhi
        have := hret.agree x _ (hfree x hlo hhi)
        rw [if_pos (by omega)] at this
        rw [hlist]
        exact this
      · intro x v hx hv
        have := hret.agree x v hv
        rw [if_neg (by omega)] at this
        rw [hlist]
        exact this
    · refine ⟨hal, hfree, fun x _ _ => by omega, ?_, hcur hal⟩
      intro x v _ hv
      rw [hlist, heq]
      exact hv
    · rcases hne with hpos | hmap
      · omega
      · exact absurd hmap hnot

end requests

/-! ## The searches -/

section searches

variable {T : target} {L : layout} {s s' : mmap_state} {q : request} {n length hint r : Nat}

theorem find_vma_request_type (hq : find_vma_request s length = some q) : q.type = .VMA_MAP := by
  obtain ⟨desc, -, rfl⟩ := Option.map_eq_some_iff.mp hq
  rfl

theorem choose_request_type (hq : choose_request L s length = some q) : q.type = .VMA_MAP := by
  obtain ⟨i, hi, hq⟩ := Option.bind_eq_some_iff.mp hq
  simp only at hq
  split at hq
  · exact find_vma_request_type hq
  · obtain rfl := Option.some.inj hq
    rfl

/-- The descriptor that `find_vma` looks for is the one of its request. -/
theorem find_vma_at_iff (s : mmap_state) (length : Nat) (P : Nat → Prop) :
    find_vma_at s.vma_list (PAGE_ALIGN_UP length) P ↔
      ∀ q, find_vma_request s length = some q → P q.start_addr := by
  unfold find_vma_at find_vma_request
  simp only [Option.map_eq_some_iff]
  constructor
  · rintro h q ⟨desc, hfind, rfl⟩
    exact h desc hfind
  · intro h d hd
    exact h _ ⟨d, hd, rfl⟩

theorem choose_at_iff (L : layout) (s : mmap_state) (length : Nat) (P : Nat → Prop) :
    choose_at s (PAGE_ALIGN_UP length) P ↔
      ∀ q, choose_request L s length = some q → P q.start_addr := by
  unfold choose_at choose_request
  cases find_address_owner s.vma_list s.kernel_cursor with
  | none => simp
  | some i =>
    simp only [Option.some.injEq, forall_eq', Option.bind_eq_bind, Option.bind_some]
    cases (s.vma_list.drop i).find? (fun desc => decide (desc.type = .VMA_UNMAP ∧
        sub64 desc.end_addr (choose_start s.kernel_cursor desc) ≥ PAGE_ALIGN_UP length)) with
    | some d => simp only [Option.some.injEq, forall_eq']
    | none =>
      have hfind := find_vma_at_iff { s with
        is_end_of_vm_reach := true
        kernel_cursor := L.KERNEL_CHOOSE_START_ADDR } (PAGE_ALIGN_UP length) P
      rw [PAGE_ALIGN_UP_up] at hfind
      exact hfind

/-- `find_vma` takes the start of a free descriptor. -/
theorem find_vma_start (hq : find_vma_request s length = some q) :
    ∃ d ∈ s.vma_list, d.type = .VMA_UNMAP ∧ q.start_addr = d.start_addr := by
  obtain ⟨d, hfind, rfl⟩ := Option.map_eq_some_iff.mp hq
  obtain ⟨hfree, -⟩ : d.type = .VMA_UNMAP ∧
      sub64 d.end_addr d.start_addr ≥ PAGE_ALIGN_UP length := by
    simpa using List.find?_some hfind
  exact ⟨d, List.mem_of_find?_eq_some hfind, hfree, rfl⟩

/-- `find_vma_with_kernel_choose` takes the cursor when there is room above it, and otherwise the
    start of a free descriptor. -/
theorem choose_start_cases (hl : Orderly s.vma_list) (hq : choose_request L s length = some q) :
    (∃ d ∈ s.vma_list, owns s.kernel_cursor d = true ∧ d.type = .VMA_UNMAP ∧
      q.start_addr = s.kernel_cursor) ∨
    ((∀ d ∈ s.vma_list, owns s.kernel_cursor d = true → d.type = .VMA_UNMAP →
        d.end_addr < s.kernel_cursor + PAGE_ALIGN_UP length) ∧
      ∃ d ∈ s.vma_list, d.type = .VMA_UNMAP ∧ q.start_addr = d.start_addr) := by
  obtain ⟨i, hi, hq⟩ := Option.bind_eq_some_iff.mp hq
  obtain ⟨pre, f, post, hsplit, rfl, hown⟩ := find_address_owner_split hi
  have hord := hsplit ▸ hl.ordered
  obtain ⟨-, hafter, -⟩ := apart_cons.mp (apart_append.mp hord).2.1
  have hcur : choose_start s.kernel_cursor f = s.kernel_cursor := by
    simp only [owns, decide_eq_true_eq] at hown
    unfold choose_start
    split_ifs <;> omega
  have hf : f ∈ s.vma_list := by simp [hsplit]
  have hdrop : s.vma_list.drop pre.length = f :: post := by rw [hsplit, List.drop_left]
  -- the cursor has one owner, where the search begins
  have howner : ∀ d ∈ s.vma_list, owns s.kernel_cursor d = true → d = f := by
    intro d hd hd'
    by_contra hne
    rw [hsplit, List.mem_append, List.mem_cons] at hd
    simp only [owns, decide_eq_true_eq] at hown hd'
    obtain hd | rfl | hd := hd
    · have := (apart_append.mp hord).2.2 d hd f (by simp)
      omega
    · exact hne rfl
    · have := hafter d hd
      omega
  have hroom : decide (f.type = .VMA_UNMAP ∧
      sub64 f.end_addr (choose_start s.kernel_cursor f) ≥ PAGE_ALIGN_UP length) = false →
      ∀ d ∈ s.vma_list, owns s.kernel_cursor d = true → d.type = .VMA_UNMAP →
        d.end_addr < s.kernel_cursor + PAGE_ALIGN_UP length := by
    intro hfull d hd hd' hfree
    obtain rfl := howner d hd hd'
    have hlim := (hl.limit d hd).2
    simp only [owns, decide_eq_true_eq] at hown hlim
    rw [hcur, sub64_eq (by omega) hlim, decide_eq_false_iff_not] at hfull
    by_contra hge
    exact hfull ⟨hfree, by omega⟩
  simp only [hdrop, List.find?_cons] at hq
  cases hfit : decide (f.type = .VMA_UNMAP ∧
      sub64 f.end_addr (choose_start s.kernel_cursor f) ≥ PAGE_ALIGN_UP length) with
  | true =>
    simp only [hfit] at hq
    obtain rfl := Option.some.inj hq
    exact .inl ⟨f, hf, hown, (of_decide_eq_true hfit).1, hcur⟩
  | false =>
    refine .inr ⟨hroom hfit, ?_⟩
    simp only [hfit] at hq
    split at hq
    · obtain ⟨d, hd, hfree, hstart⟩ := find_vma_start hq
      exact ⟨d, hd, hfree, hstart⟩
    · next d hfind =>
      obtain rfl := Option.some.inj hq
      have hd := List.mem_of_find?_eq_some hfind
      obtain ⟨hfree, -⟩ : d.type = .VMA_UNMAP ∧ sub64 d.end_addr
          (choose_start s.kernel_cursor d) ≥ PAGE_ALIGN_UP length := by
        simpa using List.find?_some hfind
      refine ⟨d, by simp [hsplit, hd], hfree, ?_⟩
      have hlt := hafter d hd
      simp only [owns, decide_eq_true_eq] at hown
      unfold choose_start
      rw [if_pos (by omega)]

theorem exact_of_unmap {l : List vma_desc} {x : Nat} (ht : typeAt l x = some .VMA_UNMAP) :
    exact_area l n x ↔ Aligned x ∧ 0 < n := by
  unfold exact_area
  rw [ht]
  simp

theorem FreeRoom.start_free {l : List vma_desc} {d : vma_desc} (hroom : FreeRoom l)
    (hl : Ordered l) (hd : d ∈ l) (hfree : d.type = .VMA_UNMAP) :
    typeAt l d.start_addr = some .VMA_UNMAP := by
  have hcov : Covers vma_desc.start_addr vma_desc.end_addr d d.start_addr :=
    ⟨Nat.le_refl _, hroom d hd hfree⟩
  have := hl.lookup_eq vma_desc.type hd hcov
  rw [hfree] at this
  exact this

theorem owner_free {l : List vma_desc} {d : vma_desc} {x : Nat} (hl : Ordered l) (hd : d ∈ l)
    (hown : owns x d = true) (hfree : d.type = .VMA_UNMAP) : typeAt l x = some .VMA_UNMAP := by
  have := hl.lookup_eq vma_desc.type hd ((owns_iff x d).mp hown)
  rw [hfree] at this
  exact this

/-- The area of `find_vma`. -/
theorem find_vma_exact (hl : Ordered s.vma_list) (hq : find_vma_request s length = some q) :
    (FreeAligned s.vma_list → 0 < n → exact_area s.vma_list n q.start_addr) ∧
      (FreeRoom s.vma_list → exact_area s.vma_list n q.start_addr → 0 < n) := by
  obtain ⟨d, hd, hfree, hstart⟩ := find_vma_start hq
  rw [hstart]
  refine ⟨?_, ?_⟩
  · exact fun hal hn => ⟨hal d hd hfree, .inl hn⟩
  · exact fun hroom h => ((exact_of_unmap (hroom.start_free hl hd hfree)).mp h).2

theorem find_vma_hands_out (hl : Tiling T s.vma_list) (hc : Owned s.vma_list s.kernel_cursor)
    (hf : find_vma s length = some (s', some r)) :
    (FreeAligned s.vma_list → 0 < PAGE_ALIGN_UP length →
      HandsOut s s' (PAGE_ALIGN_UP length) r) ∧
    (FreeRoom s.vma_list → HandsOut s s' (PAGE_ALIGN_UP length) r →
      0 < PAGE_ALIGN_UP length) := by
  obtain ⟨hr, hrest⟩ := find_vma_result hf
  obtain ⟨q, hq, rfl⟩ := Option.map_eq_some_iff.mp hr.symm
  have hfills := find_vma_fills hl.orderly hq
  have htrace := find_vma_trace s length
  rw [hq, hf] at htrace
  have hmarked : Marked s s' q :=
    Trace.marked htrace hfills.vma_list (find_vma_request_type hq)
  rw [hands_out_iff hl.orderly hfills hmarked fun _ => by
    rw [hrest.kernel_cursor]
    exact hmarked.grows hl.ordered _ hc]
  exact find_vma_exact hl.ordered hq

theorem choose_hands_out (hl : Tiling T s.vma_list)
    (hf : find_vma_with_kernel_choose T.layout s length = some (s', some r)) :
    (FreeAligned s.vma_list → 0 < PAGE_ALIGN_UP length → CursorFits s (PAGE_ALIGN_UP length) →
      HandsOut s s' (PAGE_ALIGN_UP length) r) ∧
    (FreeRoom s.vma_list → HandsOut s s' (PAGE_ALIGN_UP length) r →
      0 < PAGE_ALIGN_UP length ∧ CursorFits s (PAGE_ALIGN_UP length)) := by
  obtain ⟨hr, -, -, hmoved⟩ := choose_moved hf
  obtain ⟨q, hq, rfl⟩ := Option.map_eq_some_iff.mp hr.symm
  have hfills := choose_fills hl.orderly hq
  have htrace := choose_trace T.layout s length
  rw [hq, hf] at htrace
  have hmarked : Marked s s' q := Trace.marked htrace hfills.vma_list (choose_request_type hq)
  have hgrows := hmarked.grows hl.ordered
  have hcursor : Aligned q.start_addr → Owned s'.vma_list s'.kernel_cursor := by
    intro hal
    cases hmoved with
    | back _ hcur =>
      rw [hcur]
      exact hgrows _ hl.start_owned
    | behind _ _ hcur =>
      -- the cursor goes to the end of the area, where the request has found an owner
      obtain ⟨u, hu, -⟩ := hmarked
      have hend := (insert_area_owned hu).2
      rw [hfills.end_addr] at hend
      have hin := hl.inside hend
      rw [hcur]
      rcases next_cursor_cases T hal (aligned_up length) hin.1 hin.2 with heq | hspace
      · rw [heq]
        exact hgrows _ hend
      · exact hgrows _ ((hl.owned _).mpr hspace)
  rw [hands_out_iff hl.orderly hfills hmarked hcursor]
  rcases choose_start_cases hl.orderly hq with
    ⟨d, hd, hown, hfree, hstart⟩ | ⟨hfull, d, hd, hfree, hstart⟩
  · -- there is room above the cursor
    have hunmap := owner_free hl.ordered hd hown hfree
    obtain ⟨c, hc, hcfree, hlo, hhi⟩ := hfills.range.desc
    rw [hstart] at hlo hhi ⊢
    rw [exact_of_unmap hunmap]
    refine ⟨?_, ?_⟩
    · intro _ hn hfits
      refine ⟨hfits c hc ?_ hcfree hhi, hn⟩
      simp only [owns, decide_eq_true_eq]
      omega
    · exact fun _ h => ⟨h.2, fun _ _ _ _ _ => h.1⟩
  · rw [hstart]
    refine ⟨?_, ?_⟩
    · exact fun hal hn _ => ⟨hal d hd hfree, .inl hn⟩
    · intro hroom h
      refine ⟨((exact_of_unmap (hroom.start_free hl.ordered hd hfree)).mp h).2, ?_⟩
      intro c hc hown hcfree hfit
      have := hfull c hc hown hcfree
      omega

theorem hint_hands_out (hl : Tiling T s.vma_list) (hc : Owned s.vma_list s.kernel_cursor)
    (hf : find_vma_with_hint s length hint = some (s', some r)) :
    (FreeAligned s.vma_list → 0 < PAGE_ALIGN_UP length →
      HintEnds s.vma_list (PAGE_ALIGN_UP length) hint → HandsOut s s' (PAGE_ALIGN_UP length) r) ∧
    (FreeRoom s.vma_list → HandsOut s s' (PAGE_ALIGN_UP length) r →
      0 < PAGE_ALIGN_UP length ∧ HintEnds s.vma_list (PAGE_ALIGN_UP length) hint) := by
  obtain ⟨hr, hrest⟩ := hint_result hf
  obtain ⟨q, hq, rfl⟩ := Option.map_eq_some_iff.mp hr.symm
  have htrace := hint_trace s length hint
  rw [hq, hf] at htrace
  have hcur : Marked s s' q → Owned s'.vma_list s'.kernel_cursor := by
    intro hmarked
    rw [hrest.kernel_cursor]
    exact hmarked.grows hl.ordered _ hc
  have htop := top_le T
  unfold TASK_SIZE at htop
  by_cases hfits : hint_fits s length hint
  · rw [hint_request_fits hl.ordered hfits] at hq
    obtain rfl := Option.some.inj hq
    have hmarked := Trace.marked htrace rfl rfl
    obtain ⟨d, hd, hown, hfree, -⟩ := id hfits
    have hunmap := owner_free hl.ordered hd hown hfree
    have hiff : PAGE_ALIGN_DOWN hint + PAGE_ALIGN_UP length < 2 ^ 64 →
        (HandsOut s s' (PAGE_ALIGN_UP length) (PAGE_ALIGN_DOWN hint) ↔
          Aligned (PAGE_ALIGN_DOWN hint) ∧ 0 < PAGE_ALIGN_UP length) := by
      intro hwrap
      rw [← exact_of_unmap hunmap]
      exact hands_out_iff hl.orderly
        (hint_fills hl.orderly hwrap (hint_request_fits hl.ordered hfits)) hmarked
        fun _ => hcur hmarked
    refine ⟨?_, ?_⟩
    · intro _ hn hends
      exact (hiff (hends d hd hown hfree)).mpr ⟨aligned_down hint, hn⟩
    · intro _ h
      have hwrap : PAGE_ALIGN_DOWN hint + PAGE_ALIGN_UP length < 2 ^ 64 := by
        -- nothing is free at the top of the address space
        by_contra hge
        have hlow := (hl.inside ⟨d, hd, hown⟩).2
        have hx := h.was_free (PAGE_ALIGN_DOWN hint + PAGE_ALIGN_UP length - 1)
          (by simp only; omega) (by simp only; omega)
        have := (hl.inside ((owned_iff _ _).mpr ⟨_, hx⟩)).2
        omega
      exact ⟨((hiff hwrap).mp h).2, fun _ _ _ _ => hwrap⟩
  · rw [hint_request_misses hfits] at hq
    have hfills := find_vma_fills hl.orderly hq
    rw [PAGE_ALIGN_UP_up] at hfills
    have hmarked : Marked s s' q :=
      Trace.marked htrace hfills.vma_list (find_vma_request_type hq)
    rw [hands_out_iff hl.orderly hfills hmarked fun _ => hcur hmarked]
    obtain ⟨henough, hneeds⟩ := find_vma_exact hl.ordered hq
    refine ⟨fun hal hn _ => henough hal hn, ?_⟩
    intro hroom h
    refine ⟨hneeds hroom h, ?_⟩
    -- an area with this length has been found, so that the length is small
    intro d hd hown _
    have hlow := (hl.inside ⟨d, hd, hown⟩).2
    have hlen := hfills.range.limit
    unfold TASK_SIZE at hlen
    omega

end searches

/-- On every tiling whose free areas begin on page boundaries, with the cursor anywhere in it, an
    area that a search returns is handed out when its rounded length is not 0, when the cursor is
    on a page boundary where it is used, and when a hinted area does not wrap around. When no
    descriptor of a free area is empty, it is handed out only then. -/
theorem searches_hand_out (T : target) (s : mmap_state) (hl : Tiling T s.vma_list)
    (hc : Owned s.vma_list s.kernel_cursor) (length hint : Nat) :
    (∀ s' r, find_vma s length = some (s', some r) →
      (FreeAligned s.vma_list → 0 < PAGE_ALIGN_UP length →
        HandsOut s s' (PAGE_ALIGN_UP length) r) ∧
      (FreeRoom s.vma_list → HandsOut s s' (PAGE_ALIGN_UP length) r →
        0 < PAGE_ALIGN_UP length)) ∧
    (∀ s' r, find_vma_with_kernel_choose T.layout s length = some (s', some r) →
      (FreeAligned s.vma_list → 0 < PAGE_ALIGN_UP length →
        CursorFits s (PAGE_ALIGN_UP length) → HandsOut s s' (PAGE_ALIGN_UP length) r) ∧
      (FreeRoom s.vma_list → HandsOut s s' (PAGE_ALIGN_UP length) r →
        0 < PAGE_ALIGN_UP length ∧ CursorFits s (PAGE_ALIGN_UP length))) ∧
    ∀ s' r, find_vma_with_hint s length hint = some (s', some r) →
      (FreeAligned s.vma_list → 0 < PAGE_ALIGN_UP length →
        HintEnds s.vma_list (PAGE_ALIGN_UP length) hint →
          HandsOut s s' (PAGE_ALIGN_UP length) r) ∧
      (FreeRoom s.vma_list → HandsOut s s' (PAGE_ALIGN_UP length) r →
        0 < PAGE_ALIGN_UP length ∧ HintEnds s.vma_list (PAGE_ALIGN_UP length) hint) :=
  ⟨fun _ _ hf => find_vma_hands_out hl hc hf, fun _ _ hf => choose_hands_out hl hf,
    fun _ _ hf => hint_hands_out hl hc hf⟩

theorem init_tiling (T : target) : Tiling T T.layout.vma_init := by
  cases T with
  | arm64 =>
    refine ⟨by simp [Ordered, Apart, target.layout, arm64_layout, arm64_initial_list], ?_, ?_⟩
    · simp [BoundsIn, target.layout, arm64_layout, arm64_initial_list, target.bottom, target.top]
    · intro x
      simp only [Owned, owns, target.layout, arm64_layout, arm64_initial_list, target.space,
        List.mem_cons, List.not_mem_nil, or_false, exists_eq_or_imp, exists_eq_left,
        decide_eq_true_eq]
      omega
  | arm =>
    refine ⟨by simp [Ordered, Apart, target.layout, arm_layout], ?_, ?_⟩
    · simp [BoundsIn, target.layout, arm_layout, target.bottom, target.top]
    · intro x
      simp only [Owned, owns, target.layout, arm_layout, target.space, List.mem_cons,
        List.not_mem_nil, or_false, exists_eq_or_imp, exists_eq_left, decide_eq_true_eq]
      omega

/-- The first page on arm64, and a page at a hint. -/
theorem searches_hand_out_page :
    (∃ s', find_vma_with_kernel_choose arm64_layout (mmap_init arm64_layout) 0x1000 =
        some (s', some 0x4000000000) ∧
      HandsOut (mmap_init arm64_layout) s' 0x1000 0x4000000000) ∧
    ∃ s', find_vma_with_hint (mmap_init arm64_layout) 0x1000 0x5000000123 =
        some (s', some 0x5000000000) ∧
      HandsOut (mmap_init arm64_layout) s' 0x1000 0x5000000000 := by
  have htiling := init_tiling .arm64
  have haligned : FreeAligned (mmap_init arm64_layout).vma_list := by
    unfold FreeAligned
    decide
  have hchoose : find_vma_with_kernel_choose arm64_layout (mmap_init arm64_layout) 0x1000 = some
      (⟨[⟨.VMA_UNMAP, 0x400000, 0x4000000000⟩, ⟨.VMA_MAP, 0x4000000000, 0x4000001000⟩,
        ⟨.VMA_UNMAP, 0x4000001000, 0x7000000000⟩, ⟨.VMA_MAP, 0x7000000000, 0x7000001000⟩],
        98, true, 0x4000010000, false, [], 0, 0⟩, some 0x4000000000) := by decide
  have hhint : find_vma_with_hint (mmap_init arm64_layout) 0x1000 0x5000000123 = some
      (⟨[⟨.VMA_UNMAP, 0x400000, 0x5000000000⟩, ⟨.VMA_MAP, 0x5000000000, 0x5000001000⟩,
        ⟨.VMA_UNMAP, 0x5000001000, 0x7000000000⟩, ⟨.VMA_MAP, 0x7000000000, 0x7000001000⟩],
        98, true, 0x4000000000, false, [], 0, 0⟩, some 0x5000000000) := by decide
  refine ⟨⟨_, hchoose, ?_⟩, ⟨_, hhint, ?_⟩⟩
  · exact ((searches_hand_out .arm64 (mmap_init arm64_layout) htiling htiling.start_owned
      0x1000 0).2.1 _ _ hchoose).1 haligned (by decide) fun _ _ _ _ _ => by decide
  · exact ((searches_hand_out .arm64 (mmap_init arm64_layout) htiling htiling.start_owned
      0x1000 0x5000000123).2.2 _ _ hhint).1 haligned (by decide) fun _ _ _ _ => by decide

/-- A search for an area of length 0 maps the whole space above the cursor. -/
theorem empty_search_maps_the_rest : ∃ s',
    Tiling .arm64 (mmap_init arm64_layout).vma_list ∧
    find_vma_with_kernel_choose arm64_layout (mmap_init arm64_layout) 0 =
      some (s', some 0x4000000000) ∧
    typeAt (mmap_init arm64_layout).vma_list 0x5000000000 = some .VMA_UNMAP ∧
    typeAt s'.vma_list 0x5000000000 = some .VMA_MAP ∧
    ¬ HandsOut (mmap_init arm64_layout) s' (PAGE_ALIGN_UP 0) 0x4000000000 := by
  have hfind : find_vma_with_kernel_choose arm64_layout (mmap_init arm64_layout) 0 = some
      (⟨[⟨.VMA_UNMAP, 0x400000, 0x4000000000⟩, ⟨.VMA_MAP, 0x4000000000, 0x7000000000⟩,
        ⟨.VMA_MAP, 0x7000000000, 0x7000001000⟩], 99, true, 0x4000000000, false, [], 0, 0⟩,
        some 0x4000000000) := by decide
  refine ⟨_, init_tiling .arm64, hfind, by decide, by decide, ?_⟩
  intro h
  have := h.others 0x5000000000 .VMA_UNMAP (by decide) (by decide)
  exact absurd this (by decide)

end Umeq.Memory
