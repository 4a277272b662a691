import Umeq.Memory.Owners
import Umeq.Memory.Queries

/-! # Every lookup of a call finds an owner

    Over `Umeq.Memory.Owners`: which addresses the calls look up, in which state, and
    why each has an owner. The addresses that a search of the code finds have one in
    every state. Those that the guest gives have one when they lie in the space that
    `mmap_init` covers, which `internal_mmap` and the others do not check
    (`find_vma_with_hint` does: "in case client give a buggy address").
-/

namespace Umeq.Memory

/-! ## Parts of a call -/

/-- What the searches and `shmdt` rely on. -/
structure SealedIn (T : target) (vm : mmap_state) : Prop where
  list_sealed : Sealed T vm.vma_list
  cursor : CursorIn vm.vma_list vm.kernel_cursor
  attached : ∀ d ∈ vm.shmat_list, Aligned d.start_addr ∧ d.start_addr < d.end_addr ∧
    Owned vm.vma_list d.start_addr ∧ Owned vm.vma_list d.end_addr

/-- A part of a call: its requests, and the lookups it makes elsewhere, with the state
    in which each is made. -/
structure Safe (T : target) (vm : mmap_state) (qs : List request) (ls : List (mmap_state × Nat))
    (r : Option mmap_state) : Prop where
  requests : ∀ q ∈ qs, q.answered
  lookups : ∀ p ∈ ls, Owned p.1.vma_list p.2
  state : ∀ vm', r = some vm' → SealedIn T vm' ∧ Grows vm.vma_list vm'.vma_list

section parts

variable {T : target} {vm vm' : mmap_state} {qs qs' : List request}
  {ls ls' : List (mmap_state × Nat)} {r : Option mmap_state}

theorem Grows.refl (l : List vma_desc) : Grows l l := fun _ hx => hx

theorem Safe.done (h : SealedIn T vm) : Safe T vm [] [] (some vm) where
  requests := by simp
  lookups := by simp
  state := by
    intro vm' hvm
    obtain rfl := Option.some.inj hvm
    exact ⟨h, .refl _⟩

theorem Safe.append (h : Safe T vm qs ls (some vm')) (h' : SealedIn T vm' → Safe T vm' qs' ls' r) :
    Safe T vm (qs ++ qs') (ls ++ ls') r := by
  obtain ⟨hvm', hg⟩ := h.state vm' rfl
  have h' := h' hvm'
  refine ⟨?_, ?_, ?_⟩
  · intro q hq
    rcases List.mem_append.mp hq with hq | hq
    · exact h.requests q hq
    · exact h'.requests q hq
  · intro p hp
    rcases List.mem_append.mp hp with hp | hp
    · exact h.lookups p hp
    · exact h'.lookups p hp
  · intro vm'' hvm
    obtain ⟨hs, hg'⟩ := h'.state vm'' hvm
    exact ⟨hs, fun x hx => hg' x (hg x hx)⟩

/-- The part ends with something that touches neither the list nor the cursor. -/
theorem Safe.after {r' : Option mmap_state} (h : Safe T vm qs ls r)
    (hr : ∀ vm'', r' = some vm'' → ∃ vm', r = some vm' ∧ vm''.vma_list = vm'.vma_list ∧
      vm''.kernel_cursor = vm'.kernel_cursor ∧ ∀ d ∈ vm''.shmat_list, d ∈ vm'.shmat_list ∨
        Aligned d.start_addr ∧ d.start_addr < d.end_addr ∧
          Owned vm.vma_list d.start_addr ∧ Owned vm.vma_list d.end_addr) :
    Safe T vm qs ls r' := by
  refine ⟨h.requests, h.lookups, ?_⟩
  intro vm'' hvm
  obtain ⟨vm', hr', hlist, hcur, hshm⟩ := hr vm'' hvm
  obtain ⟨hs, hg⟩ := h.state vm' hr'
  refine ⟨⟨hlist ▸ hs.list_sealed, ?_, ?_⟩, hlist ▸ hg⟩
  · rw [hlist, hcur]
    exact hs.cursor
  · rw [hlist]
    intro d hd
    rcases hshm d hd with hd | ⟨hal, hlt, hstart, hend⟩
    · exact hs.attached d hd
    · exact ⟨hal, hlt, hg _ hstart, hg _ hend⟩

/-- From the requests of a part and what it does to the rest of the state. -/
theorem Safe.of_trace (ht : Trace vm qs r) (h : SealedIn T vm)
    (hq : ∀ q ∈ qs, Grows vm.vma_list q.vm.vma_list → q.Sound)
    (hls : ∀ p ∈ ls, Owned p.1.vma_list p.2)
    (hr : ∀ vm', r = some vm' → CursorIn vm.vma_list vm'.kernel_cursor ∧
      ∀ d ∈ vm'.shmat_list, d ∈ vm.shmat_list) : Safe T vm qs ls r := by
  obtain ⟨hall, hlast⟩ := ht.sealed h.list_sealed hq
  refine ⟨hall, hls, ?_⟩
  intro vm' hvm
  obtain ⟨hs, hg⟩ := hlast vm' hvm
  obtain ⟨hcur, hshm⟩ := hr vm' hvm
  refine ⟨⟨hs, ⟨hcur.1, hg _ hcur.2⟩, ?_⟩, hg⟩
  intro d hd
  obtain ⟨hal, hlt, hstart, hend⟩ := h.attached d (hshm d hd)
  exact ⟨hal, hlt, hg _ hstart, hg _ hend⟩

end parts

section addresses

variable {T : target} {w : world} {addr length : Nat} {fixed : Bool} {a : answer}

/-- The address has an owner after `mmap_init`; on arm also those between the two parts
    of the space, once a request has spanned the gap. -/
def in_space (T : target) (vm : mmap_state) (x : Nat) : Prop :=
  T.space x ∨ (T = .arm ∧ 0x80001000 ≤ x ∧ x < 0xffff0000 ∧ Owned vm.vma_list x)

theorem SealedIn.owned {vm : mmap_state} {x : Nat} (h : SealedIn T vm) (hx : in_space T vm x) :
    Owned vm.vma_list x := by
  rcases hx with hx | ⟨-, -, -, hx⟩
  · exact h.list_sealed.covers x hx
  · exact hx

/-! ## `mmap` and `munmap` -/

/-- The guest's part of a `mmap`: a fixed address lies in the space with its end, and the
    length of a search is not 0 and does not lead around the address space. -/
def mmap_inside (T : target) (w : world) (addr_p length_p : Nat) (map_fixed : Bool) (a : answer) :
    Prop :=
  if addr_p ≠ 0 ∧ map_fixed then
    ∀ r, (mmap_syscall w.host a addr_p length_p).2 = .ok r →
      in_space T w.vm addr_p ∧ in_space T w.vm (PAGE_ALIGN_UP (add64 addr_p length_p))
  else 0 < PAGE_ALIGN_UP length_p ∧ PAGE_ALIGN_DOWN addr_p + PAGE_ALIGN_UP length_p < 2 ^ 64

def mmap_lookups (vm : mmap_state) (addr_p : Nat) : List (mmap_state × Nat) :=
  if addr_p = 0 then [(vm, vm.kernel_cursor)] else []

theorem mmap_lookups_owned (h : SealedIn T w.vm) (addr : Nat) :
    ∀ p ∈ mmap_lookups w.vm addr, Owned p.1.vma_list p.2 := by
  intro p hp
  unfold mmap_lookups at hp
  split_ifs at hp
  · rw [List.mem_singleton.mp hp]
    exact h.cursor.2
  · cases hp

theorem search_takes {q : request} (h : SealedIn T w.vm) (hpos : 0 < PAGE_ALIGN_UP length)
    (hwrap : PAGE_ALIGN_DOWN addr + PAGE_ALIGN_UP length < 2 ^ 64)
    (hq : search_request T.layout w.vm addr length = some q) :
    Takes w.vm.vma_list (PAGE_ALIGN_UP length) q := by
  unfold search_request at hq
  split_ifs at hq
  · exact choose_takes h.list_sealed h.cursor hpos hq
  · exact hint_takes h.list_sealed hpos hwrap hq

theorem search_result {vm : mmap_state} {r : Option Nat} (h : SealedIn T w.vm)
    (hpos : 0 < PAGE_ALIGN_UP length)
    (hf : mmap_search T.layout w.vm addr length = some (vm, r)) :
    r = (search_request T.layout w.vm addr length).map (·.start_addr) ∧
      CursorIn w.vm.vma_list vm.kernel_cursor ∧ vm.shmat_list = w.vm.shmat_list := by
  unfold mmap_search at hf
  unfold search_request
  split_ifs at hf ⊢
  · exact choose_result h.list_sealed h.cursor hpos hf
  · obtain ⟨hr, hrest⟩ := hint_result hf
    exact ⟨hr, hrest.kernel_cursor ▸ h.cursor, hrest.shmat_list⟩

theorem up_of_aligned {x : Nat} (hx : Aligned x) (hlt : x < 2 ^ 63) : PAGE_ALIGN_UP x = x := by
  unfold PAGE_ALIGN_UP PAGE_ALIGN_DOWN Aligned add64 PAGE_SIZE at *
  omega

/-- The range that a failed call gives back is the one that it has taken. -/
theorem Available.undo_end {l : List vma_desc} {start : Nat}
    (h : Available l start (PAGE_ALIGN_UP length)) :
    PAGE_ALIGN_UP (add64 start length) = start + PAGE_ALIGN_UP length := by
  have hpos := h.pos
  have hlim := h.limit
  have hal := h.start_aligned
  unfold PAGE_ALIGN_UP PAGE_ALIGN_DOWN Aligned add64 TASK_SIZE PAGE_SIZE at *
  omega

/-- A range that the guest gives and the host has accepted. -/
theorem range_sound {vm : mmap_state} (hargs : range_args addr length)
    (hstart : Owned vm.vma_list addr)
    (hend : Owned vm.vma_list (PAGE_ALIGN_UP (add64 addr length))) (t : vma_type) :
    request.Sound ⟨vm, addr, PAGE_ALIGN_UP (add64 addr length), t⟩ := by
  obtain ⟨hal, hpos, hlim⟩ := hargs
  obtain ⟨-, hge, -, -⟩ := PAGE_ALIGN_UP_spec (show length ≤ TASK_SIZE by omega)
  refine ⟨?_, hstart, hend, fun _ => hal, fun _ => aligned_up _⟩
  rw [PAGE_ALIGN_UP_add hal (by omega) (by omega)]
  simp only
  omega

theorem mmap_sound (h : SealedIn T w.vm) (hin : mmap_inside T w addr length fixed a) :
    ∀ q ∈ mmap_requests T.layout w addr length fixed a,
      Grows w.vm.vma_list q.vm.vma_list → q.Sound := by
  unfold mmap_inside at hin
  unfold mmap_requests
  split_ifs at hin ⊢ with hfixed
  · intro q hq _
    obtain ⟨rfl, r, hok⟩ := mem_on_success hq
    obtain ⟨hstart, hend⟩ := hin r hok
    exact range_sound (range_args_of_ok hok) (h.owned hstart) (h.owned hend) _
  · obtain ⟨hpos, hwrap⟩ := hin
    intro q hq hg
    rcases List.mem_append.mp hq with hq | hq
    · exact (search_takes h hpos hwrap (Option.mem_toList.mp hq)).sound
    · rcases hf : mmap_search T.layout w.vm addr length with _ | ⟨vm, _ | start⟩ <;>
        rw [hf] at hq
      · cases hq
      · cases hq
      · obtain rfl := mem_on_failure hq
        obtain ⟨hr, -, -⟩ := search_result h hpos hf
        obtain ⟨q₀, hq₀, rfl⟩ := Option.map_eq_some_iff.mp hr.symm
        have havail := (search_takes h hpos hwrap hq₀).available
        simp only [havail.undo_end]
        exact havail.sound _ hg _

theorem mmap_frame {prot_exec : Bool} {w' : world} {r : Except Nat Nat} (h : SealedIn T w.vm)
    (hin : mmap_inside T w addr length fixed a)
    (hcall : internal_mmap T.layout w addr length prot_exec fixed a = some (w', r)) :
    CursorIn w.vm.vma_list w'.vm.kernel_cursor ∧ w'.vm.shmat_list = w.vm.shmat_list := by
  unfold mmap_inside at hin
  unfold internal_mmap at hcall
  split_ifs at hin hcall with hfixed
  · rcases hsys : mmap_syscall w.host a addr length with ⟨host, errno | x⟩ <;>
      simp only [hsys] at hcall
    · obtain ⟨rfl, rfl⟩ := Prod.mk.inj (Option.some.inj hcall)
      exact ⟨h.cursor, rfl⟩
    · obtain ⟨vm, hins, hcall⟩ := Option.bind_eq_some_iff.mp hcall
      obtain ⟨rfl, rfl⟩ := Prod.mk.inj (Option.some.inj hcall)
      obtain ⟨u, -, -, hcur, hshm⟩ := insert_spec hins
      exact ⟨hcur ▸ h.cursor, hshm⟩
  · obtain ⟨⟨vm, res_vma⟩, hfind, hcall⟩ := Option.bind_eq_some_iff.mp hcall
    obtain ⟨-, hcur, hshm⟩ := search_result h hin.1 hfind
    cases res_vma with
    | none =>
      obtain ⟨rfl, rfl⟩ := Prod.mk.inj (Option.some.inj hcall)
      exact ⟨hcur, hshm⟩
    | some start =>
      rcases hsys : mmap_syscall w.host a start length with ⟨host, errno | x⟩ <;>
        simp only [hsys] at hcall
      · obtain ⟨vm', hins, hcall⟩ := Option.bind_eq_some_iff.mp hcall
        obtain ⟨rfl, rfl⟩ := Prod.mk.inj (Option.some.inj hcall)
        obtain ⟨u, -, -, hcur', hshm'⟩ := insert_spec hins
        exact ⟨hcur' ▸ hcur, hshm'.trans hshm⟩
      · obtain ⟨rfl, rfl⟩ := Prod.mk.inj (Option.some.inj hcall)
        exact ⟨hcur, hshm⟩

theorem mmap_safe (prot_exec : Bool) (h : SealedIn T w.vm)
    (hin : mmap_inside T w addr length fixed a) :
    Safe T w.vm (mmap_requests T.layout w addr length fixed a) (mmap_lookups w.vm addr)
      ((internal_mmap T.layout w addr length prot_exec fixed a).map (·.1.vm)) := by
  refine .of_trace (mmap_trace T.layout w addr length prot_exec fixed a) h (mmap_sound h hin)
    (mmap_lookups_owned h addr) ?_
  intro vm' hvm
  obtain ⟨⟨w', r⟩, hcall, rfl⟩ := Option.map_eq_some_iff.mp hvm
  obtain ⟨hcur, hshm⟩ := mmap_frame h hin hcall
  exact ⟨hcur, fun d hd => hshm ▸ hd⟩

def munmap_inside (T : target) (w : world) (addr_p length_p : Nat) (a : answer) : Prop :=
  ∀ r, (munmap w.host a addr_p length_p).2 = .ok r →
    in_space T w.vm addr_p ∧ in_space T w.vm (PAGE_ALIGN_UP (add64 addr_p length_p))

theorem munmap_safe (h : SealedIn T w.vm) (hin : munmap_inside T w addr length a) :
    Safe T w.vm (munmap_requests w addr length a) []
      ((internal_munmap w addr length a).map (·.1.vm)) := by
  refine .of_trace (munmap_trace w addr length a) h ?_ (by simp) ?_
  · intro q hq _
    obtain ⟨rfl, r, hok⟩ := mem_on_success hq
    obtain ⟨hstart, hend⟩ := hin r hok
    exact range_sound (range_args_of_ok hok) (h.owned hstart) (h.owned hend) _
  · intro vm' hvm
    obtain ⟨⟨w', r⟩, hcall, rfl⟩ := Option.map_eq_some_iff.mp hvm
    unfold internal_munmap at hcall
    rcases hsys : munmap w.host a addr length with ⟨host, errno | x⟩ <;>
      simp only [hsys] at hcall
    · obtain ⟨rfl, rfl⟩ := Prod.mk.inj (Option.some.inj hcall)
      exact ⟨h.cursor, fun d hd => hd⟩
    · obtain ⟨vm, hins, hcall⟩ := Option.bind_eq_some_iff.mp hcall
      obtain ⟨rfl, rfl⟩ := Prod.mk.inj (Option.some.inj hcall)
      obtain ⟨u, -, -, hcur, hshm⟩ := insert_spec hins
      exact ⟨hcur ▸ h.cursor, fun d hd => hshm ▸ hd⟩

end addresses

/-! ## `mremap` -/

section mremap

variable {T : target} {w w' : world} {old old_size new_size new : Nat} {maymove fixed : Bool}
  {a a' : answer} {r : Except Nat Nat}

/-- The guest's part of a `mremap` that passes the checks of the code: where the end of the old
    area is looked up it lies in the space, as does a given new area, and the area to move is not
    empty. -/
def mremap_inside (T : target) (w : world) (old_addr_p old_size_p new_size_p : Nat)
    (maymove fixed : Bool) (new_addr_p : Nat) (a a' : answer) : Prop :=
  let old_end := add64 old_addr_p (PAGE_ALIGN_UP old_size_p)
  PAGE_ALIGN_DOWN old_addr_p = old_addr_p →
  is_area_valid w.vm old_addr_p (add64 old_addr_p old_size_p) = true →
  if fixed then
    ∀ r, (mremap_fixed w.host a old_addr_p old_size_p new_size_p new_addr_p).2 = .ok r →
      0 < old_size_p ∧ in_space T w.vm old_end ∧ in_space T w.vm new_addr_p ∧
        in_space T w.vm (PAGE_ALIGN_UP (add64 new_addr_p new_size_p))
  else if PAGE_ALIGN_UP new_size_p ≤ PAGE_ALIGN_UP old_size_p then
    PAGE_ALIGN_UP old_size_p ≠ PAGE_ALIGN_UP new_size_p →
    ∀ r, (mremap_in_place w.host a old_addr_p old_size_p new_size_p).2 = .ok r →
      in_space T w.vm old_end
  else in_space T w.vm old_end ∧ (maymove → a' = .accepts → 0 < old_size_p)

def mremap_lookups (w : world) (old_addr_p old_size_p new_size_p : Nat) (maymove fixed : Bool)
    (a : answer) : List (mmap_state × Nat) :=
  if PAGE_ALIGN_DOWN old_addr_p ≠ old_addr_p then []
  else if ¬ is_area_valid w.vm old_addr_p (add64 old_addr_p old_size_p) then []
  else if fixed then []
  else if PAGE_ALIGN_UP new_size_p ≤ PAGE_ALIGN_UP old_size_p then []
  else [(w.vm, PAGE_ALIGN_DOWN (add64 old_addr_p (PAGE_ALIGN_UP old_size_p)))] ++
    match mremap_grow w old_addr_p old_size_p new_size_p a with
    | some (w, .error _) => if maymove then [(w.vm, w.vm.kernel_cursor)] else []
    | _ => []

/-- The area passes the checks of `internal_mremap`. -/
structure Checked (vm : mmap_state) (old old_size : Nat) : Prop where
  aligned : Aligned old
  owner : ∃ d ∈ vm.vma_list, owns old d = true ∧ PAGE_ALIGN_UP (add64 old old_size) ≤ d.end_addr

theorem checked_of_valid {vm : mmap_state} (hal : PAGE_ALIGN_DOWN old = old)
    (hvalid : is_area_valid vm old (add64 old old_size) = true) : Checked vm old old_size := by
  refine ⟨hal ▸ aligned_down old, ?_⟩
  unfold is_area_valid at hvalid
  rw [hal] at hvalid
  cases hi : find_address_owner_without_assert vm.vma_list old with
  | none => simp [hi] at hvalid
  | some i =>
    obtain ⟨d, hget, hmem, hown⟩ := find_address_owner_getElem hi
    simp only [hi, hget, decide_eq_true_eq] at hvalid
    exact ⟨d, hmem, hown, hvalid.2⟩

section checked

variable (hc : Checked w.vm old old_size) (hlim : old + old_size ≤ TASK_SIZE)

include hc

theorem Checked.start_owned : Owned w.vm.vma_list old := by
  obtain ⟨d, hd, hown, -⟩ := hc.owner
  exact ⟨d, hd, hown⟩

include hlim

theorem Checked.end_eq : PAGE_ALIGN_UP (add64 old old_size) = old + PAGE_ALIGN_UP old_size ∧
    add64 old (PAGE_ALIGN_UP old_size) = old + PAGE_ALIGN_UP old_size := by
  obtain ⟨-, -, -, hu⟩ := PAGE_ALIGN_UP_spec (show old_size ≤ TASK_SIZE by omega)
  exact ⟨PAGE_ALIGN_UP_add hc.aligned (by omega) (by omega), add64_eq (by omega) hu⟩

/-- Inside the old area the owner of its start owns everything. -/
theorem Checked.owned_below {x : Nat} (hlo : old ≤ x) (hhi : x < old + PAGE_ALIGN_UP old_size) :
    Owned w.vm.vma_list x := by
  obtain ⟨d, hd, hown, hend⟩ := hc.owner
  rw [(hc.end_eq hlim).1] at hend
  refine ⟨d, hd, ?_⟩
  simp only [owns, decide_eq_true_eq] at hown ⊢
  omega

end checked

theorem mremap_to_safe (h : SealedIn T w.vm) (hc : Checked w.vm old old_size)
    (hin : ∀ r, (mremap_fixed w.host a old old_size new_size new).2 = .ok r →
      0 < old_size ∧ in_space T w.vm (add64 old (PAGE_ALIGN_UP old_size)) ∧
        in_space T w.vm new ∧ in_space T w.vm (PAGE_ALIGN_UP (add64 new new_size))) :
    Safe T w.vm (mremap_to_requests w old old_size new_size new a) []
      ((mremap_to w old old_size new_size new a).map (·.1.vm)) := by
  refine .of_trace (mremap_to_trace w old old_size new_size new a) h ?_ (by simp) ?_
  · intro q hq hg
    unfold mremap_to_requests at hq
    rcases hok : (mremap_fixed w.host a old old_size new_size new).2 with errno | x <;>
      simp only [hok] at hq
    · cases hq
    · obtain ⟨hpos, hend, hnew, hnewend⟩ := hin x hok
      obtain ⟨hargs, hrange, -⟩ := mremap_fixed_args hok
      rcases List.mem_cons.mp hq with rfl | hq
      · rw [(hc.end_eq hargs.2.1).2] at hend
        refine range_sound ⟨hc.aligned, hpos, hargs.2.1⟩ hc.start_owned ?_ _
        rw [(hc.end_eq hargs.2.1).1]
        exact h.owned hend
      · obtain ⟨vm, -, rfl⟩ := Option.map_eq_some_iff.mp (Option.mem_toList.mp hq)
        exact range_sound hrange (hg _ (h.owned hnew)) (hg _ (h.owned hnewend)) _
  · intro vm' hvm
    obtain ⟨⟨v, x⟩, hcall, rfl⟩ := Option.map_eq_some_iff.mp hvm
    unfold mremap_to at hcall
    rcases hsys : mremap_fixed w.host a old old_size new_size new with ⟨host, errno | x⟩ <;>
      simp only [hsys] at hcall
    · obtain ⟨rfl, rfl⟩ := Prod.mk.inj (Option.some.inj hcall)
      exact ⟨h.cursor, fun d hd => hd⟩
    · obtain ⟨vm, hins, hcall⟩ := Option.bind_eq_some_iff.mp hcall
      obtain ⟨vm', hins', hcall⟩ := Option.bind_eq_some_iff.mp hcall
      obtain ⟨rfl, rfl⟩ := Prod.mk.inj (Option.some.inj hcall)
      obtain ⟨-, -, -, hcur, hshm⟩ := insert_spec hins
      obtain ⟨-, -, -, hcur', hshm'⟩ := insert_spec hins'
      refine ⟨?_, ?_⟩
      · rw [hcur', hcur]
        exact h.cursor
      · rw [hshm', hshm]
        exact fun d hd => hd

theorem mremap_shrink_safe (h : SealedIn T w.vm) (hc : Checked w.vm old old_size)
    (hle : PAGE_ALIGN_UP new_size ≤ PAGE_ALIGN_UP old_size)
    (hin : PAGE_ALIGN_UP old_size ≠ PAGE_ALIGN_UP new_size →
      ∀ r, (mremap_in_place w.host a old old_size new_size).2 = .ok r →
        in_space T w.vm (add64 old (PAGE_ALIGN_UP old_size))) :
    Safe T w.vm (mremap_shrink_requests w old old_size new_size a) []
      ((mremap_shrink w old old_size new_size a).map (·.1.vm)) := by
  refine .of_trace (mremap_shrink_trace w old old_size new_size a) h ?_ (by simp) ?_
  · intro q hq _
    unfold mremap_shrink_requests at hq
    split_ifs at hq with hne
    · obtain ⟨rfl, x, hok⟩ := mem_on_success hq
      obtain ⟨hal, hlim, hpos, hnlim⟩ := mremap_in_place_args hok
      have hend := h.owned (hin hne x hok)
      have hstart : add64 old (PAGE_ALIGN_UP new_size) = old + PAGE_ALIGN_UP new_size :=
        add64_eq (by omega) (PAGE_ALIGN_UP_spec hnlim).2.2.2
      rw [(hc.end_eq hlim).2, hstart]
      rw [(hc.end_eq hlim).2] at hend
      refine ⟨by simp only; omega, ?_, hend, fun _ => hc.aligned.add (aligned_up _), by simp⟩
      exact hc.owned_below hlim (Nat.le_add_right _ _) (by simp only; omega)
    · cases hq
  · intro vm' hvm
    obtain ⟨⟨v, x⟩, hcall, rfl⟩ := Option.map_eq_some_iff.mp hvm
    unfold mremap_shrink at hcall
    rcases hsys : mremap_in_place w.host a old old_size new_size with ⟨host, errno | x⟩ <;>
      simp only [hsys] at hcall
    · obtain ⟨rfl, rfl⟩ := Prod.mk.inj (Option.some.inj hcall)
      exact ⟨h.cursor, fun d hd => hd⟩
    · split_ifs at hcall
      · obtain ⟨vm, hins, hcall⟩ := Option.bind_eq_some_iff.mp hcall
        obtain ⟨rfl, rfl⟩ := Prod.mk.inj (Option.some.inj hcall)
        obtain ⟨-, -, -, hcur, hshm⟩ := insert_spec hins
        exact ⟨hcur ▸ h.cursor, fun d hd => hshm ▸ hd⟩
      · obtain ⟨rfl, rfl⟩ := Prod.mk.inj (Option.some.inj hcall)
        exact ⟨h.cursor, fun d hd => hd⟩

theorem mremap_grow_frame (hcall : mremap_grow w old old_size new_size a = some (w', r)) :
    (∀ errno, r = .error errno → w'.vm = w.vm) ∧ w'.vm.kernel_cursor = w.vm.kernel_cursor ∧
      w'.vm.shmat_list = w.vm.shmat_list := by
  unfold mremap_grow at hcall
  obtain ⟨free, -, hcall⟩ := Option.bind_eq_some_iff.mp hcall
  split_ifs at hcall
  · rcases hsys : mremap_in_place w.host a old old_size new_size with ⟨host, errno | x⟩ <;>
      simp only [hsys] at hcall
    · obtain ⟨rfl, rfl⟩ := Prod.mk.inj (Option.some.inj hcall)
      exact ⟨fun _ _ => rfl, rfl, rfl⟩
    · obtain ⟨vm, hins, hcall⟩ := Option.bind_eq_some_iff.mp hcall
      obtain ⟨rfl, rfl⟩ := Prod.mk.inj (Option.some.inj hcall)
      obtain ⟨-, -, -, hcur, hshm⟩ := insert_spec hins
      exact ⟨by simp, hcur, hshm⟩
  · obtain ⟨rfl, rfl⟩ := Prod.mk.inj (Option.some.inj hcall)
    exact ⟨fun _ _ => rfl, rfl, rfl⟩

theorem mremap_grow_safe (h : SealedIn T w.vm) (hc : Checked w.vm old old_size)
    (hlt : PAGE_ALIGN_UP old_size < PAGE_ALIGN_UP new_size)
    (hin : in_space T w.vm (add64 old (PAGE_ALIGN_UP old_size))) :
    Safe T w.vm (mremap_grow_requests w old old_size new_size a)
      [(w.vm, PAGE_ALIGN_DOWN (add64 old (PAGE_ALIGN_UP old_size)))]
      ((mremap_grow w old old_size new_size a).map (·.1.vm)) := by
  have hown := h.owned hin
  have hgrow : Aligned (add64 old (PAGE_ALIGN_UP old_size)) := by
    have hal := hc.aligned
    have hup := aligned_up old_size
    unfold Aligned add64 PAGE_SIZE at *
    omega
  have hdown : PAGE_ALIGN_DOWN (add64 old (PAGE_ALIGN_UP old_size)) =
      add64 old (PAGE_ALIGN_UP old_size) := by
    unfold PAGE_ALIGN_DOWN Aligned PAGE_SIZE at *
    omega
  refine .of_trace (mremap_grow_trace w old old_size new_size a) h ?_ ?_ ?_
  · intro q hq _
    unfold mremap_grow_requests at hq
    dsimp only at hq
    split_ifs at hq with hfree
    · obtain ⟨rfl, x, hok⟩ := mem_on_success hq
      obtain ⟨hal, hlim, hpos, hnlim⟩ := mremap_in_place_args hok
      obtain ⟨hnal, -, -, hnu⟩ := PAGE_ALIGN_UP_spec hnlim
      have hend : add64 old (PAGE_ALIGN_UP new_size) = old + PAGE_ALIGN_UP new_size :=
        add64_eq (by omega) hnu
      have hendal := hc.aligned.add hnal
      -- the owner of the first address is free up to the end
      obtain ⟨i, hi, hfree⟩ := Option.bind_eq_some_iff.mp hfree
      rw [hdown] at hi
      obtain ⟨d, hget, hmem, hd⟩ := find_address_owner_getElem hi
      simp only [hget, Option.bind_eq_bind, Option.bind_some, Option.some.injEq,
        decide_eq_true_eq] at hfree
      simp only [owns, decide_eq_true_eq] at hd
      rw [(hc.end_eq hlim).2] at hd hown
      rw [(hc.end_eq hlim).2, hend]
      have hround : PAGE_ALIGN_UP (old + PAGE_ALIGN_UP new_size) = old + PAGE_ALIGN_UP new_size :=
        up_of_aligned hendal (by unfold TASK_SIZE at hlim hnu; omega)
      rw [hend, hround] at hfree
      refine ⟨by simp only; omega, hown, ?_, by simp, fun _ => hendal⟩
      exact h.list_sealed.free_owned hmem hfree.1 hendal (by simp only; omega) hfree.2
    · cases hq
  · intro p hp
    rw [List.mem_singleton.mp hp, hdown]
    exact hown
  · intro vm' hvm
    obtain ⟨⟨v, x⟩, hcall, rfl⟩ := Option.map_eq_some_iff.mp hvm
    obtain ⟨-, hcur, hshm⟩ := mremap_grow_frame hcall
    exact ⟨hcur ▸ h.cursor, fun d hd => hshm ▸ hd⟩

theorem mremap_move_safe (h : SealedIn T w.vm) (hc : Checked w.vm old old_size)
    (hlt : PAGE_ALIGN_UP old_size < PAGE_ALIGN_UP new_size)
    (hin : in_space T w.vm (add64 old (PAGE_ALIGN_UP old_size)))
    (hpos : a = .accepts → 0 < old_size) :
    Safe T w.vm (mremap_move_requests T.layout w old old_size new_size a)
      [(w.vm, w.vm.kernel_cursor)]
      ((mremap_move T.layout w old old_size new_size a).map (·.1.vm)) := by
  have hnew : 0 < PAGE_ALIGN_UP new_size := by omega
  refine .of_trace (mremap_move_trace T.layout w old old_size new_size a) h ?_ ?_ ?_
  · intro q hq hg
    rcases List.mem_append.mp hq with hq | hq
    · exact (choose_takes h.list_sealed h.cursor hnew (Option.mem_toList.mp hq)).sound
    · rcases hf : find_vma_with_kernel_choose T.layout w.vm new_size with _ | ⟨vm, _ | start⟩ <;>
        rw [hf] at hq
      · cases hq
      · cases hq
      obtain ⟨hr, -, -⟩ := choose_result h.list_sealed h.cursor hnew hf
      obtain ⟨q₀, hq₀, rfl⟩ := Option.map_eq_some_iff.mp hr.symm
      have havail := (choose_takes h.list_sealed h.cursor hnew hq₀).available
      rcases List.mem_append.mp hq with hq | hq
      · obtain ⟨rfl, x, hok⟩ := mem_on_success hq
        obtain ⟨hargs, -, ha⟩ := mremap_fixed_args hok
        have hpos := hpos ha
        have hlim := hargs.2.1
        have hend := h.owned hin
        obtain ⟨-, hge, -, -⟩ := PAGE_ALIGN_UP_spec (show old_size ≤ TASK_SIZE by omega)
        rw [(hc.end_eq hlim).2] at hend
        rw [add64_eq (by omega) (by omega)] at hg ⊢
        refine ⟨by simp only; omega, hg _ hc.start_owned, hg _ ?_, fun _ => hc.aligned, by simp⟩
        simp only
        -- the end that is not rounded is inside the old area, or is the rounded one
        by_cases hin : old + old_size < old + PAGE_ALIGN_UP old_size
        · exact hc.owned_below hlim (by omega) hin
        · rwa [show old + old_size = old + PAGE_ALIGN_UP old_size by omega]
      · obtain rfl := mem_on_failure hq
        have hlim := havail.limit
        rw [add64_eq (by omega) (by omega)] at hg ⊢
        exact havail.sound _ hg _
  · intro p hp
    rw [List.mem_singleton.mp hp]
    exact h.cursor.2
  · intro vm' hvm
    obtain ⟨⟨v, x⟩, hcall, rfl⟩ := Option.map_eq_some_iff.mp hvm
    unfold mremap_move at hcall
    obtain ⟨⟨vm, res_vma⟩, hfind, hcall⟩ := Option.bind_eq_some_iff.mp hcall
    obtain ⟨-, hcur, hshm⟩ := choose_result h.list_sealed h.cursor hnew hfind
    cases res_vma with
    | none =>
      obtain ⟨rfl, rfl⟩ := Prod.mk.inj (Option.some.inj hcall)
      exact ⟨hcur, fun d hd => hshm ▸ hd⟩
    | some start =>
      rcases hsys : mremap_fixed w.host a old old_size new_size start with ⟨host, errno | x⟩ <;>
        simp only [hsys] at hcall <;>
        obtain ⟨vm', hins, hcall⟩ := Option.bind_eq_some_iff.mp hcall <;>
        obtain ⟨rfl, rfl⟩ := Prod.mk.inj (Option.some.inj hcall) <;>
        obtain ⟨-, -, -, hcur', hshm'⟩ := insert_spec hins <;>
        exact ⟨hcur' ▸ hcur, fun d hd => hshm ▸ hshm' ▸ hd⟩

theorem mremap_safe (h : SealedIn T w.vm)
    (hin : mremap_inside T w old old_size new_size maymove fixed new a a') :
    Safe T w.vm (mremap_requests T.layout w old old_size new_size maymove fixed new a a')
      (mremap_lookups w old old_size new_size maymove fixed a)
      ((internal_mremap T.layout w old old_size new_size maymove fixed new a a').map (·.1.vm)) := by
  unfold mremap_requests mremap_lookups internal_mremap
  by_cases hal : PAGE_ALIGN_DOWN old ≠ old
  · rw [if_pos hal, if_pos hal, if_pos hal]
    exact .done h
  rw [if_neg hal, if_neg hal, if_neg hal]
  by_cases hvalid : is_area_valid w.vm old (add64 old old_size)
  · rw [if_neg (not_not.mpr hvalid), if_neg (not_not.mpr hvalid), if_neg (not_not.mpr hvalid)]
    have hc := checked_of_valid (not_not.mp hal) hvalid
    have hin := hin (not_not.mp hal) hvalid
    by_cases hf : fixed = true
    · rw [if_pos hf, if_pos hf, if_pos hf]
      rw [if_pos hf] at hin
      exact mremap_to_safe h hc hin
    rw [if_neg hf, if_neg hf, if_neg hf]
    rw [if_neg hf] at hin
    by_cases hle : PAGE_ALIGN_UP new_size ≤ PAGE_ALIGN_UP old_size
    · rw [if_pos hle, if_pos hle, if_pos hle]
      rw [if_pos hle] at hin
      exact mremap_shrink_safe h hc hle hin
    rw [if_neg hle, if_neg hle, if_neg hle]
    rw [if_neg hle] at hin
    obtain ⟨hend, hpos⟩ := hin
    have hgrow := mremap_grow_safe (a := a) h hc (Nat.lt_of_not_le hle) hend
    rcases hg : mremap_grow w old old_size new_size a with _ | ⟨v, errno | x⟩ <;>
      rw [hg] at hgrow
    · simpa using hgrow
    · -- the attempt has failed and has left the state as it was
      refine hgrow.append ?_
      intro h'
      simp only [Option.bind_eq_bind, Option.bind_some]
      obtain ⟨hsame, -, -⟩ := mremap_grow_frame hg
      have hvm := hsame errno rfl
      split_ifs with hmove
      · refine mremap_move_safe h' ?_ (Nat.lt_of_not_le hle) ?_ (hpos hmove)
        · rw [hvm]
          exact hc
        · rw [hvm]
          exact hend
      · exact .done h'
    · simpa using hgrow
  · rw [if_pos hvalid, if_pos hvalid, if_pos hvalid]
    exact .done h

end mremap

/-! ## `shmat` and `shmdt` -/

section shm

variable {T : target} {w : world} {seg shmaddr segsz start : Nat} {stat : Except Nat Nat}
  {a a' : answer}

/-- The guest's part of a `shmat`: a given address lies in the space with its end. The host
    knows the size of the segment. -/
def shmat_inside (T : target) (w : world) (shmaddr_p : Nat) (stat : Except Nat Nat) : Prop :=
  ∀ shm_segsz, stat = .ok shm_segsz → 0 < shm_segsz ∧ shm_segsz ≤ TASK_SIZE ∧
    (shmaddr_p ≠ 0 → in_space T w.vm (PAGE_ALIGN_DOWN shmaddr_p) ∧
      in_space T w.vm (add64 (PAGE_ALIGN_DOWN shmaddr_p) (PAGE_ALIGN_UP shm_segsz)))

/-- The lookup of a nested `mmap` in `get_shmat_free_desc`. -/
def shm_insert_lookups (vm : mmap_state) : List (mmap_state × Nat) :=
  if vm.free_shmat = 0 then mmap_lookups vm 0 else []

def shmat_lookups (L : layout) (w : world) (seg shmaddr_p : Nat) (stat : Except Nat Nat)
    (a : answer) : List (mmap_state × Nat) :=
  match stat with
  | .error _ => []
  | .ok shm_segsz =>
    mmap_lookups w.vm shmaddr_p ++
      match shmat_place L w.vm shmaddr_p (PAGE_ALIGN_UP shm_segsz) with
      | some (vm, some start_addr) =>
        match shmat_syscall w.host a seg shm_segsz start_addr with
        | (_, .error _) => []
        | (_, .ok _) => shm_insert_lookups vm
      | _ => []

/-- Nested calls ask for one page anywhere. -/
theorem page_inside (T : target) (w : world) (a : answer) :
    mmap_inside T w 0 PAGE_SIZE false a := by
  unfold mmap_inside
  rw [if_neg (by simp)]
  decide

theorem shm_insert_safe {s e : Nat} (h : SealedIn T w.vm) (hal : Aligned s) (hlt : s < e)
    (hs : Owned w.vm.vma_list s) (he : Owned w.vm.vma_list e) :
    Safe T w.vm (shm_insert_requests T.layout w a) (shm_insert_lookups w.vm)
      ((shm_insert T.layout w s e a).map (·.vm)) := by
  unfold shm_insert_requests shm_insert_lookups shm_insert get_shmat_free_desc
  split_ifs
  · refine (mmap_safe false h (page_inside T w a)).after ?_
    intro vm'' hvm
    obtain ⟨v, hcall, rfl⟩ := Option.map_eq_some_iff.mp hvm
    obtain ⟨v', hcall, hv⟩ := Option.bind_eq_some_iff.mp hcall
    obtain ⟨⟨v'', errno | x⟩, hmmap, hv'⟩ := Option.bind_eq_some_iff.mp hcall
    · cases hv'
    · obtain rfl := Option.some.inj hv'
      obtain rfl := Option.some.inj hv
      refine ⟨v''.vm, by rw [hmmap]; rfl, rfl, rfl, ?_⟩
      intro d hd
      rcases List.mem_cons.mp hd with rfl | hd
      · exact .inr ⟨hal, hlt, hs, he⟩
      · exact .inl hd
  · refine (Safe.done h).after ?_
    intro vm'' hvm
    obtain rfl := Option.some.inj hvm
    refine ⟨w.vm, rfl, rfl, rfl, ?_⟩
    intro d hd
    rcases List.mem_cons.mp hd with rfl | hd
    · exact .inr ⟨hal, hlt, hs, he⟩
    · exact .inl hd

/-- The area of a `shmat`, found or given. -/
theorem shmat_place_takes {q : request} (h : SealedIn T w.vm)
    (hin : shmat_inside T w shmaddr (.ok segsz))
    (hq : shmat_place_request T.layout w.vm shmaddr (PAGE_ALIGN_UP segsz) = some q) :
    Takes w.vm.vma_list (PAGE_ALIGN_UP segsz) q := by
  obtain ⟨hpos, hlim, hin⟩ := hin segsz rfl
  obtain ⟨hal, hge, -, hu⟩ := PAGE_ALIGN_UP_spec hlim
  unfold shmat_place_request at hq
  split_ifs at hq with h0
  · have := choose_takes h.list_sealed h.cursor (by rw [PAGE_ALIGN_UP_up]; omega) hq
    rwa [PAGE_ALIGN_UP_up] at this
  · obtain rfl := Option.some.inj hq
    obtain ⟨hstart, hend⟩ := hin h0
    have hstart := h.owned hstart
    have hend := h.owned hend
    have hs := h.list_sealed.lt_top hstart
    have htop := top_le T
    rw [add64_eq (by omega) hu] at hend
    have he := h.list_sealed.lt_top hend
    exact ⟨rfl, ⟨aligned_down _, hal, by omega, by simp only; omega, hstart, hend⟩,
      add64_eq (by omega) hu, rfl⟩

theorem shmat_place_result {vm : mmap_state} {r : Option Nat} (h : SealedIn T w.vm)
    (hpos : 0 < PAGE_ALIGN_UP segsz)
    (hf : shmat_place T.layout w.vm shmaddr (PAGE_ALIGN_UP segsz) = some (vm, r)) :
    r = (shmat_place_request T.layout w.vm shmaddr (PAGE_ALIGN_UP segsz)).map (·.start_addr) ∧
      CursorIn w.vm.vma_list vm.kernel_cursor ∧ vm.shmat_list = w.vm.shmat_list := by
  unfold shmat_place at hf
  unfold shmat_place_request
  split_ifs at hf ⊢
  · exact choose_result h.list_sealed h.cursor (by rwa [PAGE_ALIGN_UP_up]) hf
  · obtain ⟨v, hins, hres⟩ := Option.bind_eq_some_iff.mp hf
    obtain ⟨rfl, rfl⟩ := Prod.mk.inj (Option.some.inj hres)
    obtain ⟨-, -, -, hcur, hshm⟩ := insert_spec hins
    exact ⟨rfl, hcur ▸ h.cursor, hshm⟩

theorem shmat_place_safe (h : SealedIn T w.vm) (hin : shmat_inside T w shmaddr (.ok segsz)) :
    Safe T w.vm (shmat_place_request T.layout w.vm shmaddr (PAGE_ALIGN_UP segsz)).toList
      (mmap_lookups w.vm shmaddr)
      ((shmat_place T.layout w.vm shmaddr (PAGE_ALIGN_UP segsz)).map (·.1)) := by
  refine .of_trace (shmat_place_trace T.layout w.vm shmaddr _) h ?_ (mmap_lookups_owned h shmaddr) ?_
  · intro q hq _
    exact (shmat_place_takes h hin (Option.mem_toList.mp hq)).sound
  · intro vm' hvm
    obtain ⟨⟨v, r⟩, hplace, rfl⟩ := Option.map_eq_some_iff.mp hvm
    obtain ⟨hpos, hlim, -⟩ := hin segsz rfl
    obtain ⟨-, hge, -, -⟩ := PAGE_ALIGN_UP_spec hlim
    obtain ⟨-, hcur, hshm⟩ := shmat_place_result h (by omega) hplace
    exact ⟨hcur, fun d hd => hshm ▸ hd⟩

theorem shmat_safe (h : SealedIn T w.vm) (hin : shmat_inside T w shmaddr stat) :
    Safe T w.vm (shmat_requests T.layout w seg shmaddr stat a a')
      (shmat_lookups T.layout w seg shmaddr stat a)
      ((internal_shmat T.layout w seg shmaddr stat a a').map (·.1.vm)) := by
  unfold shmat_requests shmat_lookups internal_shmat
  cases stat with
  | error errno => exact .done h
  | ok segsz =>
    dsimp only
    have hsafe := shmat_place_safe h hin
    rcases hp : shmat_place T.layout w.vm shmaddr (PAGE_ALIGN_UP segsz) with _ | ⟨vm, _ | start⟩ <;>
      rw [hp] at hsafe
    · simpa using hsafe
    · simpa using hsafe
    obtain ⟨hpos, hlim, -⟩ := hin segsz rfl
    obtain ⟨-, hge, -, -⟩ := PAGE_ALIGN_UP_spec hlim
    obtain ⟨hr, -, -⟩ := shmat_place_result h (by omega) hp
    obtain ⟨q₀, hq₀, rfl⟩ := Option.map_eq_some_iff.mp hr.symm
    have havail := (shmat_place_takes h hin hq₀).available
    have htl := havail.limit
    obtain ⟨-, hg⟩ := hsafe.state vm rfl
    refine hsafe.append ?_
    intro h'
    simp only [Option.bind_eq_bind, Option.bind_some]
    rw [add64_eq (by omega) (by omega)]
    rcases hsys : shmat_syscall w.host a seg segsz q₀.start_addr with ⟨host, errno | x⟩ <;>
      dsimp only
    · -- the area is given back
      refine .of_trace (Trace.one (g := fun p : world × Except Nat Nat => p.1.vm) (.refl _)
        fun vm' => ⟨_, rfl, .refl vm'⟩) h' ?_ (by simp) ?_
      · intro q hq _
        obtain rfl := List.mem_singleton.mp hq
        exact havail.sound _ hg _
      · intro vm' hvm
        obtain ⟨⟨v, x⟩, hcall, rfl⟩ := Option.map_eq_some_iff.mp hvm
        obtain ⟨vm', hins, hcall⟩ := Option.bind_eq_some_iff.mp hcall
        obtain ⟨rfl, rfl⟩ := Prod.mk.inj (Option.some.inj hcall)
        obtain ⟨-, -, -, hcur, hshm⟩ := insert_spec hins
        exact ⟨hcur ▸ h'.cursor, fun d hd => hshm ▸ hd⟩
    · have hshm : Safe T vm (shm_insert_requests T.layout ⟨vm, host⟩ a') (shm_insert_lookups vm)
          ((shm_insert T.layout ⟨vm, host⟩ q₀.start_addr
            (q₀.start_addr + PAGE_ALIGN_UP segsz) a').map (·.vm)) :=
        shm_insert_safe (w := ⟨vm, host⟩) h' havail.start_aligned (by have := havail.pos; omega)
          (hg _ havail.start_owned) (hg _ havail.end_owned)
      cases hi : shm_insert T.layout ⟨vm, host⟩ q₀.start_addr
          (q₀.start_addr + PAGE_ALIGN_UP segsz) a' with
      | none =>
        rw [hi] at hshm
        exact hshm
      | some v =>
        rw [hi] at hshm
        exact hshm

theorem shmdt_safe {a : Except Nat Nat} (h : SealedIn T w.vm) :
    Safe T w.vm (shmdt_requests w shmaddr a) [] ((internal_shmdt w shmaddr a).map (·.1.vm)) := by
  refine .of_trace (shmdt_trace w shmaddr a) h ?_ (by simp) ?_
  · intro q hq _
    unfold shmdt_requests at hq
    rcases hsys : (shmdt_syscall w.host a shmaddr).2 with errno | x <;> simp only [hsys] at hq
    · cases hq
    · cases hf : shm_find w.vm shmaddr with
      | none => simp [hf] at hq
      | some desc =>
        simp only [hf] at hq
        obtain rfl := List.mem_singleton.mp hq
        obtain ⟨hal, hlt, hs, he⟩ := h.attached desc (List.mem_of_find?_eq_some hf)
        exact ⟨hlt, hs, he, fun _ => hal, by simp⟩
  · intro vm' hvm
    obtain ⟨⟨v, r⟩, hcall, rfl⟩ := Option.map_eq_some_iff.mp hvm
    unfold internal_shmdt shm_remove at hcall
    rcases hsys : shmdt_syscall w.host a shmaddr with ⟨host, errno | x⟩ <;>
      simp only [hsys] at hcall
    · obtain ⟨rfl, rfl⟩ := Prod.mk.inj (Option.some.inj hcall)
      exact ⟨h.cursor, fun d hd => hd⟩
    · cases hf : shm_find w.vm shmaddr with
      | none =>
        simp only [hf] at hcall
        obtain ⟨rfl, rfl⟩ := Prod.mk.inj (Option.some.inj hcall)
        exact ⟨h.cursor, fun d hd => hd⟩
      | some desc =>
        simp only [hf] at hcall
        obtain ⟨vm₁, hrem, hcall⟩ := Option.bind_eq_some_iff.mp hcall
        obtain ⟨vm₂, hins, hrem⟩ := Option.bind_eq_some_iff.mp hrem
        obtain rfl := Option.some.inj hrem
        obtain ⟨rfl, rfl⟩ := Prod.mk.inj (Option.some.inj hcall)
        obtain ⟨-, -, -, hcur, hshm⟩ := insert_spec hins
        refine ⟨hcur ▸ h.cursor, ?_⟩
        intro d hd
        exact hshm ▸ List.mem_of_mem_erase hd

end shm

/-! ## Runs -/

section runs

variable {T : target} {w : world}

def refill_lookups (vm : mmap_state) : List (mmap_state × Nat) :=
  if vm.desc_next_memory then [] else mmap_lookups vm 0

theorem refill_safe {a : answer} (h : SealedIn T w.vm) :
    Safe T w.vm (refill_requests T.layout w a) (refill_lookups w.vm)
      ((allocate_more_desc_memory_if_needed T.layout w a).map (·.vm)) := by
  unfold refill_requests refill_lookups allocate_more_desc_memory_if_needed
  split_ifs
  · exact .done h
  · refine (mmap_safe false h (page_inside T w a)).after ?_
    intro vm'' hvm
    obtain ⟨v, hcall, rfl⟩ := Option.map_eq_some_iff.mp hvm
    obtain ⟨⟨v', errno | x⟩, hmmap, hv⟩ := Option.bind_eq_some_iff.mp hcall
    · cases hv
    · obtain rfl := Option.some.inj hv
      exact ⟨v'.vm, by rw [hmmap]; rfl, rfl, rfl, fun d hd => .inl hd⟩

/-- The calls of `find_address_owner` outside `insert_area`, with the state in which each is
    made. -/
def call.lookups (L : layout) (w : world) : call → List (mmap_state × Nat)
  | .mmap addr_p _ _ _ _ => mmap_lookups w.vm addr_p
  | .munmap _ _ _ => []
  | .mremap old_addr_p old_size_p new_size_p maymove fixed _ a _ =>
    mremap_lookups w old_addr_p old_size_p new_size_p maymove fixed a
  | .shmat seg shmaddr_p stat a _ => shmat_lookups L w seg shmaddr_p stat a
  | .shmdt _ _ => []
  | .refill _ => refill_lookups w.vm

/-- Every lookup of the call finds an owner. -/
def call.Answered (L : layout) (w : world) (c : call) : Prop :=
  (∀ q ∈ c.requests L w, q.answered) ∧
    ∀ p ∈ c.lookups L w, (find_address_owner p.1.vma_list p.2).isSome = true

/-- What the guest gives lies in the space. -/
def call.inside (T : target) (w : world) : call → Prop
  | .mmap addr_p length_p _ map_fixed a => mmap_inside T w addr_p length_p map_fixed a
  | .munmap addr_p length_p a => munmap_inside T w addr_p length_p a
  | .mremap old_addr_p old_size_p new_size_p maymove fixed new_addr_p a a' =>
    mremap_inside T w old_addr_p old_size_p new_size_p maymove fixed new_addr_p a a'
  | .shmat _ shmaddr_p stat _ _ => shmat_inside T w shmaddr_p stat
  | .shmdt _ _ => True
  | .refill _ => True

theorem call_safe {c : call} (h : SealedIn T w.vm) (hin : c.inside T w) :
    Safe T w.vm (c.requests T.layout w) (c.lookups T.layout w)
      ((c.exec T.layout w).map (·.vm)) := by
  cases c with
  | mmap addr_p length_p prot_exec map_fixed a =>
    rw [call.exec, Option.map_map]
    exact mmap_safe prot_exec h hin
  | munmap addr_p length_p a =>
    rw [call.exec, Option.map_map]
    exact munmap_safe h hin
  | mremap old_addr_p old_size_p new_size_p maymove fixed new_addr_p a a' =>
    rw [call.exec, Option.map_map]
    exact mremap_safe h hin
  | shmat seg shmaddr_p stat a a' =>
    rw [call.exec, Option.map_map]
    exact shmat_safe h hin
  | shmdt shmaddr_p a =>
    rw [call.exec, Option.map_map]
    exact shmdt_safe h
  | refill a => exact refill_safe h

/-- The state of the world is sealed. -/
def SealedWorld (T : target) (w : world) : Prop := SealedIn T w.vm

theorem init_sealed (T : target) : SealedWorld T (address_space T.layout).init := by
  have hord := (init_in_step T).ordered
  have hinit : (address_space T.layout).init.vm.vma_list = T.layout.vma_init := rfl
  have hsealed : Sealed T (address_space T.layout).init.vm.vma_list := by
    refine ⟨hord, ?_, ?_, ?_, ?_, rfl⟩ <;> rw [hinit]
    · cases T <;> simp [target.layout, arm64_layout, arm_layout, arm64_initial_list, Joins]
    · cases T <;> decide
    · unfold BoundsIn
      cases T <;> decide
    · intro x hx
      unfold Owned
      cases T <;>
        simp [target.space, target.layout, arm64_layout, arm_layout, arm64_initial_list, owns] at hx ⊢ <;>
        omega
  exact ⟨hsealed, start_cursor hsealed, by simp [address_space, mmap_init]⟩

/-- In every run in which the guest gives addresses of the space, every call finds the owners
    that it looks up. -/
theorem guest_lookups_answered (T : target) (w : world) (c : call)
    (h : (address_space T.layout).Reach (fun w c => c.inside T w) w) (hc : c.inside T w) :
    c.Answered T.layout w := by
  have hsealed : SealedWorld T w := by
    refine h.invariant (init_sealed T) ?_
    intro v c v' hv hin hexec
    refine ((call_safe hv hin).state v'.vm ?_).1
    rw [show c.exec T.layout v = some v' from hexec]
    rfl
  have hsafe := call_safe hsealed hc
  exact ⟨hsafe.requests, fun p hp => (owned_iff_find _ _).mp (hsafe.lookups p hp)⟩

end runs

/-- A page is mapped, and its unmapping then finds its owners. -/
theorem munmap_page_answered : ∃ w,
    (address_space arm64_layout).exec (address_space arm64_layout).init mmap_page = some w ∧
    (munmap w.host .accepts 0x4000000000 0x1000).2 = .ok 0 ∧
    munmap_page.Answered arm64_layout w := by
  refine ⟨one_page, rfl, by decide,
    guest_lookups_answered .arm64 _ _ (.step .init ?_ one_page_exec) ?_⟩
  · show mmap_inside .arm64 _ 0 0x1000 false .accepts
    unfold mmap_inside
    rw [if_neg (by simp)]
    decide
  · intro r _
    refine ⟨.inl ?_, .inl ?_⟩ <;> unfold target.space <;> decide

/-- On arm64 the space begins at `0x400000`. Unmapping a page below it is accepted by the host
    and then aborts the emulator. -/
theorem munmap_low_page_aborts : ∃ (w : world) (c : call),
    (address_space arm64_layout).Reach (fun _ _ => True) w ∧ c = .munmap 0x1000 0x1000 .accepts ∧
    (munmap w.host .accepts 0x1000 0x1000).2 = .ok 0 ∧ ¬ c.Answered arm64_layout w ∧
    c.exec arm64_layout w = none := by
  refine ⟨_, _, .init, rfl, by decide, ?_, by decide⟩
  intro h
  have := h.1 ⟨mmap_init arm64_layout, 0x1000, 0x2000, .VMA_UNMAP⟩ (List.mem_singleton.mpr rfl)
  exact absurd this (by unfold request.answered; decide)

end Umeq.Memory
