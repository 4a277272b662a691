import Umeq.Memory.Neighbours
import Umeq.Memory.Requests
import Umeq.Memory.Faithful

/-! # The cursor of the kernel-chosen areas

    An area that the emulator chooses itself starts at `kernel_cursor` or above it, and the
    cursor is then put behind it. So no address is given twice before the end of the space
    is reached. This needs a list in order, which every request keeps.

    * `Orderly`: the order, for requests that may also be empty or end before their start.
    * `Ahead`: how a call moves the cursor and the flag.
-/

namespace Umeq.Memory

open Intervals

/-! ## Order -/

/-- The descriptors are in order and below the limit of the host. -/
structure Orderly (l : List vma_desc) : Prop where
  ordered : Ordered l
  limit : BoundsIn (· ≤ TASK_SIZE) (· ≤ TASK_SIZE) l

section order

variable {l : List vma_desc} {s e : Nat} {t : vma_type} {u : area_update}

theorem owner_le {n x : Nat} (h : BoundsIn (· ≤ n) (· ≤ n) l) (hx : ∃ d ∈ l, owns x d = true) :
    x ≤ n := by
  obtain ⟨d, hd, hown⟩ := hx
  have := (h d hd).2
  simp only [owns, decide_eq_true_eq] at hown
  omega

/-- A request keeps a limit, wherever it ends. -/
theorem bounds_insert {n : Nat} (hl : Ordered l) (h : BoundsIn (· ≤ n) (· ≤ n) l)
    (hu : insert_area l s e t = some u) : BoundsIn (· ≤ n) (· ≤ n) u.vma_list := by
  have hs := owner_le h (insert_area_owned hu).1
  have he := owner_le h (insert_area_owned hu).2
  rcases insert_area_cases hl hu with ⟨-, hret⟩ | ⟨-, -, heq⟩ | ⟨-, -, d, hd, -, -, -, hret⟩
  · exact hret.bounds _ _ hs he hs he h
  · rw [heq]
    exact h
  · have hdl := (h d hd).2
    exact hret.bounds _ _ hs hdl hs hdl h

/-- It keeps the order too. -/
theorem Orderly.insert (h : Orderly l) (hu : insert_area l s e t = some u) :
    Orderly u.vma_list := by
  refine ⟨?_, bounds_insert h.ordered h.limit hu⟩
  rcases insert_area_cases h.ordered hu with ⟨-, hret⟩ | ⟨-, -, heq⟩ | ⟨-, -, d, -, -, -, -, hret⟩
  · exact hret.ordered
  · rw [heq]
    exact h.ordered
  · exact hret.ordered

theorem Orderly.made {q : request} {vm : mmap_state} (h : Orderly q.vm.vma_list)
    (hmade : q.made = some vm) : Orderly vm.vma_list := by
  obtain ⟨u, hu, hlist, -⟩ := insert_spec hmade
  rw [hlist]
  exact h.insert hu

/-- A run of requests. -/
theorem Trace.orderly {vm vm' : mmap_state} {qs : List request} (ht : Trace vm qs (some vm'))
    (h : Orderly vm.vma_list) : Orderly vm'.vma_list :=
  ht.keeps (fun _ _ ho _ hmade => ho.made hmade) h

end order

/-! ## Free areas -/

/-- The range lies in one free descriptor. -/
structure FreeRange (l : List vma_desc) (start n : Nat) : Prop where
  desc : ∃ d ∈ l, d.type = .VMA_UNMAP ∧ d.start_addr ≤ start ∧ start + n ≤ d.end_addr
  limit : start + n ≤ TASK_SIZE

section searches

variable {L : layout} {l : List vma_desc} {s vm' : mmap_state} {q : request}
  {start n length hint x : Nat}

theorem FreeRange.free (h : FreeRange l start n) (hl : Ordered l) (hlo : start ≤ x)
    (hhi : x < start + n) : typeAt l x = some .VMA_UNMAP := by
  obtain ⟨d, hd, hfree, hs, he⟩ := h.desc
  have hcov : Covers vma_desc.start_addr vma_desc.end_addr d x := by
    unfold Covers
    omega
  have := hl.lookup_eq vma_desc.type hd hcov
  rw [hfree] at this
  exact this

/-- The request is for a free range of `n` bytes of the list. -/
structure Fills (l : List vma_desc) (n : Nat) (q : request) : Prop where
  vma_list : q.vm.vma_list = l
  range : FreeRange l q.start_addr n
  end_addr : q.end_addr = q.start_addr + n

theorem PAGE_ALIGN_UP_up (a : Nat) : PAGE_ALIGN_UP (PAGE_ALIGN_UP a) = PAGE_ALIGN_UP a := by
  unfold PAGE_ALIGN_UP PAGE_ALIGN_DOWN add64 PAGE_SIZE
  omega

theorem find_vma_fills (h : Orderly s.vma_list) (hq : find_vma_request s length = some q) :
    Fills s.vma_list (PAGE_ALIGN_UP length) q := by
  unfold find_vma_request at hq
  obtain ⟨desc, hfind, rfl⟩ := Option.map_eq_some_iff.mp hq
  have hmem := List.mem_of_find?_eq_some hfind
  obtain ⟨hfree, hsize⟩ : desc.type = .VMA_UNMAP ∧
      sub64 desc.end_addr desc.start_addr ≥ PAGE_ALIGN_UP length := by
    simpa using List.find?_some hfind
  have hdl := (h.limit desc hmem).2
  have hle := h.ordered.1 desc hmem
  simp only at hdl
  rw [sub64_eq hle hdl] at hsize
  refine ⟨rfl, ⟨⟨desc, hmem, hfree, Nat.le_refl _, ?_⟩, ?_⟩, add64_eq (by omega) (by omega)⟩ <;>
    simp only <;> omega

/-- The hinted area is free. -/
def hint_fits (s : mmap_state) (length hint_addr : Nat) : Prop :=
  ∃ d ∈ s.vma_list, owns (PAGE_ALIGN_DOWN hint_addr) d = true ∧ d.type = .VMA_UNMAP ∧
    PAGE_ALIGN_UP (add64 (PAGE_ALIGN_DOWN hint_addr) (PAGE_ALIGN_UP length)) ≤ d.end_addr

/-- A search with a hint takes the area at the hint, or the first one in the list. -/
theorem hint_request_fits (hl : Ordered s.vma_list) (hfits : hint_fits s length hint) :
    hint_request s length hint = some ⟨s, PAGE_ALIGN_DOWN hint,
      PAGE_ALIGN_UP (add64 (PAGE_ALIGN_DOWN hint) (PAGE_ALIGN_UP length)), .VMA_MAP⟩ := by
  obtain ⟨d, hd, hown, hfree, hend⟩ := hfits
  obtain ⟨pre, post, hsplit⟩ := List.append_of_mem hd
  have hi : find_address_owner_without_assert s.vma_list (PAGE_ALIGN_DOWN hint) =
      some pre.length := by
    rw [hsplit]
    exact find_address_owner_eq (hsplit ▸ hl) hown
  have hget : s.vma_list[pre.length]? = some d := by simp [hsplit]
  unfold hint_request
  simp only [hi, Option.bind_some, hget]
  rw [if_pos ⟨hfree, hend⟩]

theorem hint_request_misses (hmiss : ¬ hint_fits s length hint) :
    hint_request s length hint = find_vma_request s (PAGE_ALIGN_UP length) := by
  unfold hint_request
  simp only
  split
  · rfl
  · next owner howner =>
    obtain ⟨i, hi, hget⟩ := Option.bind_eq_some_iff.mp howner
    obtain ⟨d, hd, hmem, hown⟩ := find_address_owner_getElem hi
    obtain rfl : d = owner := Option.some.inj (hd.symm.trans hget)
    rw [if_neg]
    rintro ⟨hfree, hend⟩
    exact hmiss ⟨d, hmem, hown, hfree, hend⟩

theorem hint_fills (h : Orderly s.vma_list)
    (hwrap : PAGE_ALIGN_DOWN hint + PAGE_ALIGN_UP length < 2 ^ 64)
    (hq : hint_request s length hint = some q) : Fills s.vma_list (PAGE_ALIGN_UP length) q := by
  by_cases hfits : hint_fits s length hint
  · rw [hint_request_fits h.ordered hfits] at hq
    obtain rfl := Option.some.inj hq
    obtain ⟨d, hmem, hown, hfree, hfit⟩ := hfits
    have hdl := (h.limit d hmem).2
    simp only [owns, decide_eq_true_eq] at hown hdl
    have hend : PAGE_ALIGN_UP (add64 (PAGE_ALIGN_DOWN hint) (PAGE_ALIGN_UP length)) =
        PAGE_ALIGN_DOWN hint + PAGE_ALIGN_UP length := by
      unfold PAGE_ALIGN_UP PAGE_ALIGN_DOWN add64 PAGE_SIZE at *
      omega
    rw [hend] at hfit
    exact ⟨rfl, ⟨⟨d, hmem, hfree, hown.1, hfit⟩, by simp only; omega⟩, hend⟩
  · rw [hint_request_misses hfits] at hq
    have := find_vma_fills h hq
    rwa [PAGE_ALIGN_UP_up] at this

theorem choose_fills (h : Orderly s.vma_list) (hq : choose_request L s length = some q) :
    Fills s.vma_list (PAGE_ALIGN_UP length) q := by
  obtain ⟨i, hi, hq⟩ := Option.bind_eq_some_iff.mp hq
  simp only at hq
  split at hq
  · have h' : Orderly { s with
        is_end_of_vm_reach := true
        kernel_cursor := L.KERNEL_CHOOSE_START_ADDR }.vma_list := h
    have hfills := find_vma_fills h' hq
    rw [PAGE_ALIGN_UP_up] at hfills
    exact hfills
  · next desc hfind =>
    obtain rfl := Option.some.inj hq
    have hdrop := List.mem_of_find?_eq_some hfind
    have hmem := List.mem_of_mem_drop hdrop
    obtain ⟨hfree, hsize⟩ : desc.type = .VMA_UNMAP ∧ sub64 desc.end_addr
        (choose_start s.kernel_cursor desc) ≥ PAGE_ALIGN_UP length := by
      simpa using List.find?_some hfind
    have hcur := cursor_le_end h.ordered hi hdrop
    have hdle := h.ordered.1 desc hmem
    have hdl := (h.limit desc hmem).2
    simp only at hdl
    have hlo : desc.start_addr ≤ choose_start s.kernel_cursor desc ∧
        choose_start s.kernel_cursor desc ≤ desc.end_addr := by
      unfold choose_start
      split_ifs <;> omega
    rw [sub64_eq hlo.2 hdl] at hsize
    refine ⟨rfl, ⟨⟨desc, hmem, hfree, hlo.1, ?_⟩, ?_⟩, add64_eq (by omega) (by omega)⟩ <;>
      simp only <;> omega

/-! ## Results of the searches -/

/-- The state apart from the list and the descriptors. -/
structure SameRest (vm vm' : mmap_state) : Prop where
  kernel_cursor : vm'.kernel_cursor = vm.kernel_cursor
  is_end_of_vm_reach : vm'.is_end_of_vm_reach = vm.is_end_of_vm_reach
  shmat_list : vm'.shmat_list = vm.shmat_list
  cache_cleans : vm'.cache_cleans = vm.cache_cleans

theorem SameRest.refl (vm : mmap_state) : SameRest vm vm := ⟨rfl, rfl, rfl, rfl⟩

theorem SameRest.trans {vm vm' vm'' : mmap_state} (h : SameRest vm vm') (h' : SameRest vm' vm'') :
    SameRest vm vm'' :=
  ⟨h'.1.trans h.1, h'.2.trans h.2, h'.3.trans h.3, h'.4.trans h.4⟩

theorem get_free_descs_rest {k : Nat} {vm : mmap_state} (h : get_free_descs k vm = some vm') :
    SameRest vm vm' := by
  induction k generalizing vm with
  | zero =>
    obtain rfl := Option.some.inj h
    exact .refl vm
  | succ k ih =>
    obtain ⟨v, hv, hk⟩ := Option.bind_eq_some_iff.mp h
    refine SameRest.trans ?_ (ih hk)
    unfold arm64_get_free_desc at hv
    split_ifs at hv <;> obtain rfl := Option.some.inj hv <;> exact ⟨rfl, rfl, rfl, rfl⟩

theorem insert_rest {vm : mmap_state} {a b : Nat} {t : vma_type}
    (h : vm.insert a b t = some vm') : SameRest vm vm' := by
  obtain ⟨u, -, h⟩ := Option.bind_eq_some_iff.mp h
  obtain ⟨v, hv, h⟩ := Option.bind_eq_some_iff.mp h
  obtain rfl := Option.some.inj h
  have hrest := get_free_descs_rest hv
  exact ⟨hrest.1, hrest.2, hrest.3, hrest.4⟩

theorem find_vma_result {r : Option Nat} (hf : find_vma s length = some (vm', r)) :
    r = (find_vma_request s length).map (·.start_addr) ∧ SameRest s vm' := by
  unfold find_vma at hf
  unfold find_vma_request
  simp only at hf ⊢
  split at hf
  · next hnone =>
    obtain ⟨rfl, rfl⟩ := Prod.mk.inj (Option.some.inj hf)
    rw [hnone]
    exact ⟨rfl, .refl s⟩
  · next desc hfind =>
    obtain ⟨v, hins, hres⟩ := Option.bind_eq_some_iff.mp hf
    obtain ⟨rfl, rfl⟩ := Prod.mk.inj (Option.some.inj hres)
    rw [hfind]
    exact ⟨rfl, insert_rest hins⟩

theorem hint_result {r : Option Nat} (hf : find_vma_with_hint s length hint = some (vm', r)) :
    r = (hint_request s length hint).map (·.start_addr) ∧ SameRest s vm' := by
  unfold find_vma_with_hint at hf
  unfold hint_request
  simp only at hf ⊢
  cases howner : (find_address_owner_without_assert s.vma_list (PAGE_ALIGN_DOWN hint)).bind
      (s.vma_list[·]?) with
  | none =>
    simp only [howner] at hf ⊢
    exact find_vma_result hf
  | some owner =>
    simp only [howner] at hf ⊢
    split_ifs at hf ⊢ with hfit
    · obtain ⟨v, hins, hres⟩ := Option.bind_eq_some_iff.mp hf
      obtain ⟨rfl, rfl⟩ := Prod.mk.inj (Option.some.inj hres)
      exact ⟨rfl, insert_rest hins⟩
    · exact find_vma_result hf

/-- How a search that the emulator decides itself moves the cursor: behind the area, or back to
    the start when there is no room above it. -/
inductive Moved (L : layout) (s : mmap_state) (n : Nat) (vm' : mmap_state) : Option Nat → Prop where
  | behind {start : Nat} : vm'.is_end_of_vm_reach = s.is_end_of_vm_reach →
      s.kernel_cursor ≤ start → vm'.kernel_cursor = next_cursor L start n →
      Moved L s n vm' (some start)
  | back {r : Option Nat} : vm'.is_end_of_vm_reach = true →
      vm'.kernel_cursor = L.KERNEL_CHOOSE_START_ADDR → Moved L s n vm' r

theorem choose_moved {r : Option Nat}
    (hf : find_vma_with_kernel_choose L s length = some (vm', r)) :
    r = (choose_request L s length).map (·.start_addr) ∧ vm'.shmat_list = s.shmat_list ∧
      vm'.cache_cleans = s.cache_cleans ∧ Moved L s (PAGE_ALIGN_UP length) vm' r := by
  obtain ⟨i, hi, hf⟩ := Option.bind_eq_some_iff.mp hf
  unfold choose_request
  simp only [hi, Option.bind_eq_bind, Option.bind_some] at hf ⊢
  cases hfind : (s.vma_list.drop i).find? (fun desc => decide (desc.type = .VMA_UNMAP ∧
      sub64 desc.end_addr (choose_start s.kernel_cursor desc) ≥ PAGE_ALIGN_UP length)) with
  | none =>
    simp only [hfind] at hf ⊢
    obtain ⟨hr, hrest⟩ := find_vma_result hf
    exact ⟨hr, hrest.shmat_list, hrest.cache_cleans, .back hrest.is_end_of_vm_reach hrest.kernel_cursor⟩
  | some desc =>
    simp only [hfind] at hf ⊢
    obtain ⟨v, hins, hres⟩ := Option.bind_eq_some_iff.mp hf
    obtain ⟨rfl, rfl⟩ := Prod.mk.inj (Option.some.inj hres)
    have hrest := insert_rest hins
    refine ⟨rfl, hrest.shmat_list, hrest.cache_cleans, .behind hrest.is_end_of_vm_reach ?_ rfl⟩
    unfold choose_start
    split_ifs <;> omega

end searches

/-! ## The calls -/

/-- The end of the space has been reached, or the cursor has not gone back. -/
def Ahead (vm vm' : mmap_state) : Prop :=
  vm'.is_end_of_vm_reach = true ∨
    (vm.is_end_of_vm_reach = false ∧ vm.kernel_cursor ≤ vm'.kernel_cursor)

section calls

variable {T : target} {w w' : world} {vm vm' vm'' : mmap_state} {addr length n start : Nat}
  {prot_exec fixed : Bool} {a : answer} {r : Except Nat Nat}

theorem Ahead.trans (h : Ahead vm vm') (h' : Ahead vm' vm'') : Ahead vm vm'' := by
  rcases h' with hend | ⟨hend', hle'⟩
  · exact .inl hend
  · rcases h with hend | ⟨hend, hle⟩
    · rw [hend] at hend'
      cases hend'
    · exact .inr ⟨hend, Nat.le_trans hle hle'⟩

theorem SameRest.ahead (h : SameRest vm vm') : Ahead vm vm' := by
  unfold Ahead
  rw [h.is_end_of_vm_reach, h.kernel_cursor]
  cases vm.is_end_of_vm_reach <;> simp

theorem next_cursor_le (hlim : start + n ≤ TASK_SIZE) :
    start + n ≤ next_cursor T.layout start n := by
  unfold next_cursor
  rw [add64_eq (by omega) (by omega)]
  cases T with
  | arm => exact Nat.le_refl _
  | arm64 =>
    show start + n ≤ add64 (start + n) (64 * 1024 - 1) / (64 * 1024) * (64 * 1024)
    unfold add64 TASK_SIZE at *
    omega

theorem Moved.ahead {res : Option Nat} (h : Moved T.layout vm n vm' res)
    (hlim : ∀ start, res = some start → start + n ≤ TASK_SIZE) : Ahead vm vm' := by
  cases h with
  | back hend _ => exact .inl hend
  | @behind start hend hle hcur =>
    unfold Ahead
    have := @next_cursor_le T n start (hlim start rfl)
    rw [hend, hcur]
    cases hflag : vm.is_end_of_vm_reach with
    | true => exact .inl rfl
    | false => exact .inr ⟨rfl, by omega⟩

/-- The end of a search that is not fixed does not lie past `2 ^ 64`. -/
def mmap_unwrapped (addr_p length_p : Nat) (map_fixed : Bool) : Prop :=
  ¬ (addr_p ≠ 0 ∧ map_fixed) → addr_p + length_p + PAGE_SIZE < 2 ^ 64

/-- A search of `mmap`. -/
theorem search_fills {q : request} (h : Orderly w.vm.vma_list)
    (hwrap : addr + length + PAGE_SIZE < 2 ^ 64)
    (hq : search_request T.layout w.vm addr length = some q) :
    Fills w.vm.vma_list (PAGE_ALIGN_UP length) q := by
  unfold search_request at hq
  split_ifs at hq
  · exact choose_fills h hq
  · refine hint_fills h ?_ hq
    unfold PAGE_ALIGN_UP PAGE_ALIGN_DOWN add64 PAGE_SIZE at *
    omega

theorem mmap_search_result {res : Option Nat} (hf : mmap_search T.layout w.vm addr length = some (vm, res)) :
    res = (search_request T.layout w.vm addr length).map (·.start_addr) ∧
      vm.shmat_list = w.vm.shmat_list ∧ vm.cache_cleans = w.vm.cache_cleans ∧
      if addr = 0 then Moved T.layout w.vm (PAGE_ALIGN_UP length) vm res
      else SameRest w.vm vm := by
  unfold mmap_search at hf
  unfold search_request
  split_ifs at hf ⊢
  · exact choose_moved hf
  · obtain ⟨hr, hrest⟩ := hint_result hf
    exact ⟨hr, hrest.shmat_list, hrest.cache_cleans, hrest⟩

theorem range_ok_eq {h : host} {ret x : Nat} {b : Option backing}
    (hok : (range_syscall h a addr length b ret).2 = .ok x) : x = ret := by
  rcases hsys : range_syscall h a addr length b ret with ⟨h', res⟩
  rw [hsys] at hok
  rcases range_syscall_cases hsys with ⟨-, ⟨errno, rfl⟩, -⟩ | ⟨-, rfl, -⟩
  · cases hok
  · exact (Except.ok.inj hok).symm

theorem mmap_orderly (h : Orderly w.vm.vma_list)
    (hcall : internal_mmap T.layout w addr length prot_exec fixed a = some (w', r)) :
    Orderly w'.vm.vma_list := by
  have htrace := mmap_trace T.layout w addr length prot_exec fixed a
  rw [hcall] at htrace
  exact htrace.orderly h

/-- Where a `mmap` has put an executable area, and how it has moved the cursor. -/
structure Mapped (T : target) (w w' : world) (addr length : Nat) (prot_exec fixed : Bool)
    (r : Except Nat Nat) : Prop where
  ahead : Ahead w.vm w'.vm
  area : ∀ x, r = .ok x → prot_exec = true →
    (addr ≠ 0 ∧ fixed = true ∧ x = addr ∧ w'.vm.cache_cleans = w.vm.cache_cleans) ∨
    w'.vm.cache_cleans = w.vm.cache_cleans + 1 ∨
    (¬ (addr ≠ 0 ∧ fixed = true) ∧ w'.vm.is_end_of_vm_reach = false ∧
      w'.vm.cache_cleans = w.vm.cache_cleans ∧
      FreeRange w.vm.vma_list x (PAGE_ALIGN_UP length) ∧
      (addr = 0 → w.vm.kernel_cursor ≤ x) ∧
      (addr ≠ 0 → hint_request w.vm length addr ≠ none ∧
        ∀ q, hint_request w.vm length addr = some q → x = q.start_addr))

theorem mmap_mapped (h : Orderly w.vm.vma_list) (hwrap : mmap_unwrapped addr length fixed)
    (hcall : internal_mmap T.layout w addr length prot_exec fixed a = some (w', r)) :
    Mapped T w w' addr length prot_exec fixed r := by
  unfold internal_mmap at hcall
  split_ifs at hcall with hfixed
  · rcases hsys : mmap_syscall w.host a addr length with ⟨host, errno | x⟩ <;>
      simp only [hsys] at hcall
    · obtain ⟨rfl, rfl⟩ := Prod.mk.inj (Option.some.inj hcall)
      exact ⟨(SameRest.refl _).ahead, by simp⟩
    · obtain ⟨vm, hins, hcall⟩ := Option.bind_eq_some_iff.mp hcall
      obtain ⟨rfl, rfl⟩ := Prod.mk.inj (Option.some.inj hcall)
      have hrest := insert_rest hins
      have hx := @range_ok_eq addr length a w.host addr x (some .other)
        (by rw [show range_syscall w.host a addr length (some .other) addr = _ from hsys])
      refine ⟨hrest.ahead, ?_⟩
      intro y hy _
      obtain rfl := Except.ok.inj hy
      exact .inl ⟨hfixed.1, hfixed.2, hx, hrest.cache_cleans⟩
  · have hwrap := hwrap hfixed
    obtain ⟨⟨vm, res_vma⟩, hfind, hcall⟩ := Option.bind_eq_some_iff.mp hcall
    obtain ⟨hr, -, hcleans, hmoved⟩ := mmap_search_result hfind
    have hfills : ∀ start, res_vma = some start →
        FreeRange w.vm.vma_list start (PAGE_ALIGN_UP length) := by
      rintro start rfl
      obtain ⟨q, hq, rfl⟩ := Option.map_eq_some_iff.mp hr.symm
      exact (search_fills h hwrap hq).range
    have hahead : Ahead w.vm vm := by
      split_ifs at hmoved
      · exact hmoved.ahead fun start hs => (hfills start hs).limit
      · exact hmoved.ahead
    cases res_vma with
    | none =>
      obtain ⟨rfl, rfl⟩ := Prod.mk.inj (Option.some.inj hcall)
      exact ⟨hahead, by simp⟩
    | some start =>
      rcases hsys : mmap_syscall w.host a start length with ⟨host, errno | x⟩ <;>
        simp only [hsys] at hcall
      · obtain ⟨vm', hins, hcall⟩ := Option.bind_eq_some_iff.mp hcall
        obtain ⟨rfl, rfl⟩ := Prod.mk.inj (Option.some.inj hcall)
        exact ⟨hahead.trans (insert_rest hins).ahead, by simp⟩
      · obtain ⟨rfl, rfl⟩ := Prod.mk.inj (Option.some.inj hcall)
        refine ⟨hahead, ?_⟩
        intro y hy hexec
        obtain rfl := Except.ok.inj hy
        obtain rfl := @range_ok_eq start length a w.host start x (some .other)
          (by rw [show range_syscall w.host a start length (some .other) start = _ from hsys])
        cases hflag : vm.is_end_of_vm_reach with
        | true =>
          refine .inr (.inl ?_)
          simp [hexec, hcleans]
        | false =>
          refine .inr (.inr ⟨hfixed, rfl, by simp [hcleans], hfills _ rfl, ?_, ?_⟩)
          · intro h0
            rw [if_pos h0] at hmoved
            cases hmoved with
            | behind _ hle _ => exact hle
            | back hend _ =>
              rw [hend] at hflag
              cases hflag
          · intro h0
            unfold search_request at hr
            rw [if_neg h0] at hr
            obtain ⟨q, hq, hstart⟩ := Option.map_eq_some_iff.mp hr.symm
            refine ⟨by rw [hq]; simp, ?_⟩
            intro q' hq'
            obtain rfl := Option.some.inj (hq.symm.trans hq')
            exact hstart.symm

theorem munmap_kept (h : Orderly w.vm.vma_list)
    (hcall : internal_munmap w addr length a = some (w', r)) :
    Orderly w'.vm.vma_list ∧ SameRest w.vm w'.vm := by
  have htrace := munmap_trace w addr length a
  rw [hcall] at htrace
  refine ⟨htrace.orderly h, ?_⟩
  unfold internal_munmap at hcall
  rcases hsys : munmap w.host a addr length with ⟨host, errno | x⟩ <;>
    simp only [hsys] at hcall
  · obtain ⟨rfl, rfl⟩ := Prod.mk.inj (Option.some.inj hcall)
    exact .refl _
  · obtain ⟨vm, hins, hcall⟩ := Option.bind_eq_some_iff.mp hcall
    obtain ⟨rfl, rfl⟩ := Prod.mk.inj (Option.some.inj hcall)
    exact insert_rest hins

end calls

/-! ## `mremap` -/

section mremap

variable {T : target} {w w' : world} {old old_size new_size new : Nat} {maymove fixed : Bool}
  {a a' : answer} {r : Except Nat Nat}

theorem mremap_to_kept (h : Orderly w.vm.vma_list)
    (hcall : mremap_to w old old_size new_size new a = some (w', r)) :
    Orderly w'.vm.vma_list ∧ SameRest w.vm w'.vm := by
  have htrace := mremap_to_trace w old old_size new_size new a
  rw [hcall] at htrace
  refine ⟨htrace.orderly h, ?_⟩
  unfold mremap_to at hcall
  rcases hsys : mremap_fixed w.host a old old_size new_size new with ⟨host, errno | x⟩ <;>
    simp only [hsys] at hcall
  · obtain ⟨rfl, rfl⟩ := Prod.mk.inj (Option.some.inj hcall)
    exact .refl _
  · obtain ⟨vm, hins, hcall⟩ := Option.bind_eq_some_iff.mp hcall
    obtain ⟨vm', hins', hcall⟩ := Option.bind_eq_some_iff.mp hcall
    obtain ⟨rfl, rfl⟩ := Prod.mk.inj (Option.some.inj hcall)
    exact (insert_rest hins).trans (insert_rest hins')

theorem mremap_shrink_kept (h : Orderly w.vm.vma_list)
    (hcall : mremap_shrink w old old_size new_size a = some (w', r)) :
    Orderly w'.vm.vma_list ∧ SameRest w.vm w'.vm := by
  have htrace := mremap_shrink_trace w old old_size new_size a
  rw [hcall] at htrace
  refine ⟨htrace.orderly h, ?_⟩
  unfold mremap_shrink at hcall
  rcases hsys : mremap_in_place w.host a old old_size new_size with ⟨host, errno | x⟩ <;>
    simp only [hsys] at hcall
  · obtain ⟨rfl, rfl⟩ := Prod.mk.inj (Option.some.inj hcall)
    exact .refl _
  · split_ifs at hcall
    · obtain ⟨vm, hins, hcall⟩ := Option.bind_eq_some_iff.mp hcall
      obtain ⟨rfl, rfl⟩ := Prod.mk.inj (Option.some.inj hcall)
      exact insert_rest hins
    · obtain ⟨rfl, rfl⟩ := Prod.mk.inj (Option.some.inj hcall)
      exact .refl _

theorem mremap_grow_kept (h : Orderly w.vm.vma_list)
    (hcall : mremap_grow w old old_size new_size a = some (w', r)) :
    Orderly w'.vm.vma_list ∧ SameRest w.vm w'.vm := by
  have htrace := mremap_grow_trace w old old_size new_size a
  rw [hcall] at htrace
  refine ⟨htrace.orderly h, ?_⟩
  unfold mremap_grow at hcall
  obtain ⟨free, -, hcall⟩ := Option.bind_eq_some_iff.mp hcall
  split_ifs at hcall
  · rcases hsys : mremap_in_place w.host a old old_size new_size with ⟨host, errno | x⟩ <;>
      simp only [hsys] at hcall
    · obtain ⟨rfl, rfl⟩ := Prod.mk.inj (Option.some.inj hcall)
      exact .refl _
    · obtain ⟨vm, hins, hcall⟩ := Option.bind_eq_some_iff.mp hcall
      obtain ⟨rfl, rfl⟩ := Prod.mk.inj (Option.some.inj hcall)
      exact insert_rest hins
  · obtain ⟨rfl, rfl⟩ := Prod.mk.inj (Option.some.inj hcall)
    exact .refl _

theorem mremap_move_kept (h : Orderly w.vm.vma_list)
    (hcall : mremap_move T.layout w old old_size new_size a = some (w', r)) :
    Orderly w'.vm.vma_list ∧ Ahead w.vm w'.vm ∧ w'.vm.cache_cleans = w.vm.cache_cleans := by
  have hlimit : ∀ vm start,
      find_vma_with_kernel_choose T.layout w.vm new_size = some (vm, some start) →
        start + PAGE_ALIGN_UP new_size ≤ TASK_SIZE := by
    intro vm start hf
    obtain ⟨hr, -⟩ := choose_moved hf
    obtain ⟨q, hq, rfl⟩ := Option.map_eq_some_iff.mp hr.symm
    exact (choose_fills h hq).range.limit
  have htrace := mremap_move_trace T.layout w old old_size new_size a
  rw [hcall] at htrace
  refine ⟨htrace.orderly h, ?_⟩
  unfold mremap_move at hcall
  obtain ⟨⟨vm, res_vma⟩, hfind, hcall⟩ := Option.bind_eq_some_iff.mp hcall
  obtain ⟨-, -, hcleans, hmoved⟩ := choose_moved hfind
  have hahead : Ahead w.vm vm := by
    refine hmoved.ahead ?_
    rintro start rfl
    exact hlimit vm start hfind
  cases res_vma with
  | none =>
    obtain ⟨rfl, rfl⟩ := Prod.mk.inj (Option.some.inj hcall)
    exact ⟨hahead, hcleans⟩
  | some start =>
    -- in both cases one more request
    obtain ⟨vm', hrest, hvm⟩ : ∃ vm', SameRest vm vm' ∧ w'.vm = vm' := by
      rcases hsys : mremap_fixed w.host a old old_size new_size start with ⟨host, errno | x⟩ <;>
        simp only [hsys] at hcall <;>
        obtain ⟨vm', hins, hcall⟩ := Option.bind_eq_some_iff.mp hcall <;>
        obtain ⟨rfl, rfl⟩ := Prod.mk.inj (Option.some.inj hcall) <;>
        exact ⟨vm', insert_rest hins, rfl⟩
    rw [hvm]
    exact ⟨hahead.trans hrest.ahead, hrest.cache_cleans.trans hcleans⟩

theorem mremap_kept (h : Orderly w.vm.vma_list)
    (hcall : internal_mremap T.layout w old old_size new_size maymove fixed new a a' =
      some (w', r)) :
    Orderly w'.vm.vma_list ∧ Ahead w.vm w'.vm ∧ w'.vm.cache_cleans = w.vm.cache_cleans := by
  have hsame : ∀ {v : world}, Orderly v.vm.vma_list ∧ SameRest w.vm v.vm →
      Orderly v.vm.vma_list ∧ Ahead w.vm v.vm ∧ v.vm.cache_cleans = w.vm.cache_cleans :=
    fun hv => ⟨hv.1, hv.2.ahead, hv.2.cache_cleans⟩
  unfold internal_mremap at hcall
  by_cases hal : PAGE_ALIGN_DOWN old ≠ old
  · rw [if_pos hal] at hcall
    obtain ⟨rfl, rfl⟩ := Prod.mk.inj (Option.some.inj hcall)
    exact hsame ⟨h, .refl _⟩
  rw [if_neg hal] at hcall
  by_cases hvalid : is_area_valid w.vm old (add64 old old_size)
  · rw [if_neg (not_not.mpr hvalid)] at hcall
    by_cases hf : fixed = true
    · rw [if_pos hf] at hcall
      exact hsame (mremap_to_kept h hcall)
    rw [if_neg hf] at hcall
    by_cases hle : PAGE_ALIGN_UP new_size ≤ PAGE_ALIGN_UP old_size
    · rw [if_pos hle] at hcall
      exact hsame (mremap_shrink_kept h hcall)
    rw [if_neg hle] at hcall
    obtain ⟨⟨v, res⟩, hgrow, hcall⟩ := Option.bind_eq_some_iff.mp hcall
    obtain ⟨hv, hrest⟩ := mremap_grow_kept h hgrow
    cases res with
    | ok x =>
      obtain ⟨rfl, rfl⟩ := Prod.mk.inj (Option.some.inj hcall)
      exact hsame ⟨hv, hrest⟩
    | error errno =>
      dsimp only at hcall
      split_ifs at hcall
      · obtain ⟨ho, hahead, hcleans⟩ := mremap_move_kept hv hcall
        exact ⟨ho, hrest.ahead.trans hahead, hcleans.trans hrest.cache_cleans⟩
      · obtain ⟨rfl, rfl⟩ := Prod.mk.inj (Option.some.inj hcall)
        exact hsame ⟨hv, hrest⟩
  · rw [if_pos hvalid] at hcall
    obtain ⟨rfl, rfl⟩ := Prod.mk.inj (Option.some.inj hcall)
    exact hsame ⟨h, .refl _⟩

end mremap

end Umeq.Memory
