import Umeq.Memory.Mmap

/-! # The shadow map against the host

    `Shadows L vm m` relates the emulator's list to a set `m` of mapped pages.
    The set is a parameter: between the search for a free area and the answer of
    the host, the list is ahead of the host, and the relation then holds for the
    pages the host is about to map. Each call is proved to lead from the host's
    set before to the host's set after.
-/

namespace Umeq.Memory

open Intervals

/-! ## Pages -/

/-- The address is the start of a page. -/
def Aligned (x : Nat) : Prop := x % PAGE_SIZE = 0

instance (x : Nat) : Decidable (Aligned x) := inferInstanceAs (Decidable (_ = _))

/-- A set of pages, changed to `b` on the pages of `[s, e[`. -/
def setRange (m : Nat → Prop) (s e : Nat) (b : Prop) : Nat → Prop :=
  fun p => if s ≤ p * PAGE_SIZE ∧ p * PAGE_SIZE < e then b else m p

theorem PAGE_ALIGN_UP_spec {a : Nat} (h : a ≤ TASK_SIZE) :
    Aligned (PAGE_ALIGN_UP a) ∧ a ≤ PAGE_ALIGN_UP a ∧ PAGE_ALIGN_UP a < a + PAGE_SIZE ∧
      PAGE_ALIGN_UP a ≤ TASK_SIZE := by
  unfold PAGE_ALIGN_UP PAGE_ALIGN_DOWN Aligned add64 TASK_SIZE PAGE_SIZE at *
  omega

theorem PAGE_ALIGN_UP_of_aligned {a : Nat} (h : a ≤ TASK_SIZE) (ha : Aligned a) :
    PAGE_ALIGN_UP a = a := by
  unfold PAGE_ALIGN_UP PAGE_ALIGN_DOWN Aligned add64 TASK_SIZE PAGE_SIZE at *
  omega

/-- The end of a range is rounded as its length is. -/
theorem PAGE_ALIGN_UP_add {a n : Nat} (ha : Aligned a) (hla : a ≤ TASK_SIZE)
    (hln : n ≤ TASK_SIZE) : PAGE_ALIGN_UP (add64 a n) = a + PAGE_ALIGN_UP n := by
  unfold PAGE_ALIGN_UP PAGE_ALIGN_DOWN Aligned add64 TASK_SIZE PAGE_SIZE at *
  omega

theorem add64_eq {a n : Nat} (ha : a ≤ TASK_SIZE) (hn : n ≤ TASK_SIZE) : add64 a n = a + n := by
  unfold add64 TASK_SIZE at *
  omega

theorem sub64_eq {a b : Nat} (h : b ≤ a) (ha : a ≤ TASK_SIZE) : sub64 a b = a - b := by
  unfold sub64 TASK_SIZE at *
  omega

theorem Aligned.add {a b : Nat} (ha : Aligned a) (hb : Aligned b) : Aligned (a + b) := by
  unfold Aligned PAGE_SIZE at *
  omega

theorem aligned_down (a : Nat) : Aligned (PAGE_ALIGN_DOWN a) := by
  unfold Aligned PAGE_ALIGN_DOWN PAGE_SIZE
  omega

/-- An address lies in an aligned range exactly when its page does. -/
theorem setRange_page {m : Nat → Prop} {s e x : Nat} {b : Prop} (hs : Aligned s)
    (he : Aligned e) : setRange m s e b (x / PAGE_SIZE) ↔
      if s ≤ x ∧ x < e then b else m (x / PAGE_SIZE) := by
  have hpage : (s ≤ x / PAGE_SIZE * PAGE_SIZE ∧ x / PAGE_SIZE * PAGE_SIZE < e) ↔
      (s ≤ x ∧ x < e) := by
    unfold Aligned PAGE_SIZE at *
    omega
  unfold setRange
  simp only [hpage]

/-! ## The relation -/

/-- The addresses the emulator hands out: those that are free after `mmap_init`.
    The block that only gives the last byte an owner is not among them. -/
def layout.managed (L : layout) (x : Nat) : Prop := typeAt L.vma_init x = some .VMA_UNMAP

instance (L : layout) (x : Nat) : Decidable (L.managed x) := inferInstanceAs (Decidable (_ = _))

/-- A page-aligned end, or one that `mmap_init` wrote. -/
def layout.end_ok (L : layout) (e : Nat) : Prop := Aligned e ∨ ∃ d ∈ L.vma_init, d.end_addr = e

structure Shadows (L : layout) (vm : mmap_state) (m : Nat → Prop) : Prop where
  ordered : Ordered vm.vma_list
  aligned : BoundsIn Aligned L.end_ok vm.vma_list
  limit : BoundsIn (· ≤ TASK_SIZE) (· ≤ TASK_SIZE) vm.vma_list
  cursor : Aligned vm.kernel_cursor
  owned : ∀ x, L.managed x → ∃ v, typeAt vm.vma_list x = some v
  law : ∀ x, L.managed x → (typeAt vm.vma_list x = some .VMA_MAP ↔ m (x / PAGE_SIZE))
  attached : ∀ d ∈ vm.shmat_list, Aligned d.start_addr ∧ Aligned d.end_addr ∧
    d.start_addr < d.end_addr

section shadows

variable {L : layout} {vm vm' vm'' : mmap_state} {m m' : Nat → Prop} {s e n : Nat}

theorem Shadows.congr (h : Shadows L vm m)
    (hm : ∀ x, L.managed x → (m (x / PAGE_SIZE) ↔ m' (x / PAGE_SIZE))) : Shadows L vm m' :=
  { h with law := fun x hx => (h.law x hx).trans (hm x hx) }

/-- The fields of the state other than the list and the descriptors do not matter
    to the relation, apart from the cursor and the attached segments. -/
theorem Shadows.of_eq (h : Shadows L vm m) (hl : vm'.vma_list = vm.vma_list)
    (hc : Aligned vm'.kernel_cursor) (ha : vm'.shmat_list = vm.shmat_list) :
    Shadows L vm' m where
  ordered := hl ▸ h.ordered
  aligned := hl ▸ h.aligned
  limit := hl ▸ h.limit
  cursor := hc
  owned := hl ▸ h.owned
  law := hl ▸ h.law
  attached := ha ▸ h.attached

theorem get_free_descs_frame {k : Nat} (h : get_free_descs k vm = some vm') :
    vm'.kernel_cursor = vm.kernel_cursor ∧ vm'.shmat_list = vm.shmat_list := by
  induction k generalizing vm with
  | zero =>
    obtain rfl := Option.some.inj h
    exact ⟨rfl, rfl⟩
  | succ k ih =>
    obtain ⟨v, hv, hk⟩ := Option.bind_eq_some_iff.mp h
    obtain ⟨hc, ha⟩ := ih hk
    rw [hc, ha]
    unfold arm64_get_free_desc at hv
    split_ifs at hv <;> obtain rfl := Option.some.inj hv <;> exact ⟨rfl, rfl⟩

/-- What an insertion on the state does. -/
theorem insert_spec {t : vma_type} (h : vm.insert s e t = some vm') :
    ∃ u, insert_area vm.vma_list s e t = some u ∧ vm'.vma_list = u.vma_list ∧
      vm'.kernel_cursor = vm.kernel_cursor ∧ vm'.shmat_list = vm.shmat_list := by
  obtain ⟨u, hu, h⟩ := Option.bind_eq_some_iff.mp h
  obtain ⟨v, hv, h⟩ := Option.bind_eq_some_iff.mp h
  obtain rfl := Option.some.inj h
  obtain ⟨hc, ha⟩ := get_free_descs_frame hv
  exact ⟨u, hu, rfl, hc, ha⟩

/-- An insertion over whole pages moves the relation to the changed set. -/
theorem Shadows.insert {t : vma_type} (h : Shadows L vm m) (hs : Aligned s) (he : Aligned e)
    (hse : s < e) (hins : vm.insert s e t = some vm') :
    Shadows L vm' (setRange m s e (t = .VMA_MAP)) := by
  obtain ⟨u, hu, hlist, hcur, hshm⟩ := insert_spec hins
  have hret := insert_area_some h.ordered hse hu
  obtain ⟨⟨ds, hds, hos⟩, ⟨de, hde, hoe⟩⟩ := insert_area_owned hu
  have hls := (h.limit ds hds).2
  have hle := (h.limit de hde).2
  simp only [owns, decide_eq_true_eq] at hos hoe
  have hsl : s ≤ TASK_SIZE := by omega
  have hel : e ≤ TASK_SIZE := by omega
  refine ⟨hlist ▸ hret.ordered, hlist ▸ hret.bounds _ _ hs he (.inl hs) (.inl he) h.aligned,
    hlist ▸ hret.bounds _ _ hsl hel hsl hel h.limit, hcur ▸ h.cursor, ?_, ?_, hshm ▸ h.attached⟩
  · intro x hx
    obtain ⟨v, hv⟩ := h.owned x hx
    exact ⟨_, hlist ▸ hret.agree x v hv⟩
  · intro x hx
    obtain ⟨v, hv⟩ := h.owned x hx
    have hlaw := h.law x hx
    rw [hlist, hret.agree x v hv, setRange_page hs he]
    by_cases hin : s ≤ x ∧ x < e
    · simp [hin]
    · rw [if_neg hin, if_neg hin, ← hlaw, hv]

/-! ## Free areas -/

/-- The result of a search: `n` bytes at `start` were free and are now marked. -/
structure Took (L : layout) (m : Nat → Prop) (vm : mmap_state) (start n : Nat) : Prop where
  start_aligned : Aligned start
  size_aligned : Aligned n
  pos : 0 < n
  limit : start + n ≤ TASK_SIZE
  marked : Shadows L vm (setRange m start (start + n) True)
  free : ∀ x, L.managed x → start ≤ x → x < start + n → ¬ m (x / PAGE_SIZE)

/-- An area inside a free descriptor. -/
theorem Shadows.take {desc : vma_desc} {start : Nat} (h : Shadows L vm m)
    (hd : desc ∈ vm.vma_list) (ht : desc.type = .VMA_UNMAP) (hstart : Aligned start)
    (hn : Aligned n) (hpos : 0 < n) (hlo : desc.start_addr ≤ start)
    (hhi : start + n ≤ desc.end_addr) (hins : vm.insert start (start + n) .VMA_MAP = some vm') :
    Took L m vm' start n := by
  have hlim := (h.limit desc hd).2
  refine ⟨hstart, hn, hpos, by omega, ?_, ?_⟩
  · have := h.insert hstart (hstart.add hn) (by omega) hins
    simpa using this
  · intro x hx hlx hxn
    rw [← h.law x hx]
    have hcov : Covers vma_desc.start_addr vma_desc.end_addr desc x := by
      unfold Covers
      omega
    have := h.ordered.lookup_eq vma_desc.type hd hcov
    rw [ht] at this
    unfold typeAt
    simp [this]

/-- Giving back an area that was just taken. -/
theorem Took.undo {start : Nat} (h : Took L m vm start n)
    (hins : vm.insert start (start + n) .VMA_UNMAP = some vm') : Shadows L vm' m := by
  have hend := h.start_aligned.add h.size_aligned
  have hpos := h.pos
  refine (h.marked.insert h.start_aligned hend (by omega) hins).congr ?_
  intro x hx
  rw [setRange_page h.start_aligned hend, setRange_page h.start_aligned hend]
  by_cases hin : start ≤ x ∧ x < start + n
  · simp [hin, h.free x hx hin.1 hin.2]
  · rw [if_neg hin, if_neg hin]

/-- What a search returns. -/
def Found (L : layout) (m : Nat → Prop) (vm : mmap_state) (n : Nat) : Option Nat → Prop
  | none => Shadows L vm m
  | some start => Took L m vm start n

theorem find_vma_spec {length : Nat} {r : Option Nat} (h : Shadows L vm m) (hpos : 0 < length)
    (hlim : length ≤ TASK_SIZE) (hf : find_vma vm length = some (vm', r)) :
    Found L m vm' (PAGE_ALIGN_UP length) r := by
  obtain ⟨hal, hge, -, -⟩ := PAGE_ALIGN_UP_spec hlim
  unfold find_vma at hf
  simp only at hf
  split at hf
  · obtain ⟨rfl, rfl⟩ := Prod.mk.inj (Option.some.inj hf)
    exact h
  · next desc hfind =>
    obtain ⟨v, hins, hres⟩ := Option.bind_eq_some_iff.mp hf
    obtain ⟨rfl, rfl⟩ := Prod.mk.inj (Option.some.inj hres)
    have hmem := List.mem_of_find?_eq_some hfind
    obtain ⟨ht, hsize⟩ : desc.type = .VMA_UNMAP ∧
        sub64 desc.end_addr desc.start_addr ≥ PAGE_ALIGN_UP length := by
      simpa using List.find?_some hfind
    have hle := h.ordered.1 desc hmem
    have hdl := (h.limit desc hmem).2
    rw [sub64_eq hle hdl] at hsize
    rw [add64_eq (by omega) (by omega)] at hins
    exact h.take hmem ht (h.aligned desc hmem).1 hal (by omega) (Nat.le_refl _) (by omega) hins

theorem find_address_owner_getElem {l : List vma_desc} {x i : Nat}
    (h : find_address_owner l x = some i) : ∃ d, l[i]? = some d ∧ d ∈ l ∧ owns x d = true := by
  obtain ⟨pre, d, post, rfl, rfl, hown⟩ := find_address_owner_split h
  exact ⟨d, by simp, by simp, hown⟩

/-- The descriptors from the owner of the cursor on end after the cursor. -/
theorem cursor_le_end {l : List vma_desc} {c i : Nat} {desc : vma_desc} (hl : Ordered l)
    (hi : find_address_owner l c = some i) (hd : desc ∈ l.drop i) : c ≤ desc.end_addr := by
  obtain ⟨pre, d, post, rfl, rfl, hown⟩ := find_address_owner_split hi
  simp only [owns, decide_eq_true_eq] at hown
  rw [List.drop_left, List.mem_cons] at hd
  rcases hd with rfl | hd
  · omega
  · obtain ⟨_, hsep, hpost⟩ := apart_cons.mp (apart_append.mp hl).2.1
    have h1 := hsep desc hd
    have h2 := hpost.1 desc hd
    omega

/-- The cursor stays on a page boundary. -/
def layout.cursor_ok (L : layout) : Prop :=
  Aligned L.KERNEL_CHOOSE_START_ADDR ∧ ∀ a, L.FORCE_ALIGNMENT = some a → Aligned a

theorem Aligned.add64 {a b : Nat} (ha : Aligned a) (hb : Aligned b) : Aligned (add64 a b) := by
  unfold Aligned Memory.add64 PAGE_SIZE at *
  omega

theorem next_cursor_aligned {res length : Nat} (hL : L.cursor_ok) (hres : Aligned res)
    (hlen : Aligned length) : Aligned (next_cursor L res length) := by
  unfold next_cursor
  split
  · exact hres.add64 hlen
  · next a ha =>
    have haa := hL.2 a ha
    unfold Aligned at haa ⊢
    rw [Nat.mul_mod, haa, Nat.mul_zero, Nat.zero_mod]

theorem find_vma_with_kernel_choose_spec {length : Nat} {r : Option Nat} (hL : L.cursor_ok)
    (h : Shadows L vm m) (hpos : 0 < length) (hlim : length ≤ TASK_SIZE)
    (hf : find_vma_with_kernel_choose L vm length = some (vm', r)) :
    Found L m vm' (PAGE_ALIGN_UP length) r := by
  obtain ⟨hal, hge, -, hle⟩ := PAGE_ALIGN_UP_spec hlim
  obtain ⟨i, hi, hf⟩ := Option.bind_eq_some_iff.mp hf
  simp only at hf
  split at hf
  · -- nothing above the cursor: the whole list is searched, with the same rounded length
    have h' : Shadows L { vm with
        is_end_of_vm_reach := true
        kernel_cursor := L.KERNEL_CHOOSE_START_ADDR } m := h.of_eq rfl hL.1 rfl
    have := find_vma_spec h' (by omega) hle hf
    rwa [PAGE_ALIGN_UP_of_aligned hle hal] at this
  · next desc hfind =>
    obtain ⟨v, hins, hres⟩ := Option.bind_eq_some_iff.mp hf
    obtain ⟨rfl, rfl⟩ := Prod.mk.inj (Option.some.inj hres)
    have hdrop := List.mem_of_find?_eq_some hfind
    have hmem := List.mem_of_mem_drop hdrop
    obtain ⟨ht, hsize⟩ : desc.type = .VMA_UNMAP ∧ sub64 desc.end_addr
        (choose_start vm.kernel_cursor desc) ≥ PAGE_ALIGN_UP length := by
      simpa using List.find?_some hfind
    have hcur := cursor_le_end h.ordered hi hdrop
    have hdle := h.ordered.1 desc hmem
    have hdl := (h.limit desc hmem).2
    have hstart : Aligned (choose_start vm.kernel_cursor desc) := by
      unfold choose_start
      split_ifs
      · exact (h.aligned desc hmem).1
      · exact h.cursor
    have hlo : desc.start_addr ≤ choose_start vm.kernel_cursor desc ∧
        choose_start vm.kernel_cursor desc ≤ desc.end_addr := by
      unfold choose_start
      split_ifs <;> omega
    rw [sub64_eq hlo.2 hdl] at hsize
    rw [add64_eq (by omega) (by omega)] at hins
    have htook := h.take hmem ht hstart hal (by omega) hlo.1 (by omega) hins
    have hnext := next_cursor_aligned hL hstart hal
    exact { htook with marked := htook.marked.of_eq rfl hnext rfl }

theorem find_vma_with_hint_spec {length hint : Nat} {r : Option Nat} (h : Shadows L vm m)
    (hpos : 0 < length) (hlim : length ≤ TASK_SIZE)
    (hf : find_vma_with_hint vm length hint = some (vm', r)) :
    Found L m vm' (PAGE_ALIGN_UP length) r := by
  obtain ⟨hal, hge, -, hle⟩ := PAGE_ALIGN_UP_spec hlim
  have helse : find_vma vm (PAGE_ALIGN_UP length) = some (vm', r) →
      Found L m vm' (PAGE_ALIGN_UP length) r := by
    intro hf
    have := find_vma_spec h (by omega) hle hf
    rwa [PAGE_ALIGN_UP_of_aligned hle hal] at this
  unfold find_vma_with_hint at hf
  simp only at hf
  split at hf
  · exact helse hf
  · next owner howner =>
    split_ifs at hf with hfit
    · obtain ⟨v, hins, hres⟩ := Option.bind_eq_some_iff.mp hf
      obtain ⟨rfl, rfl⟩ := Prod.mk.inj (Option.some.inj hres)
      obtain ⟨i, hi, hget⟩ := Option.bind_eq_some_iff.mp howner
      obtain ⟨d, hd, hmem, hown⟩ := find_address_owner_getElem hi
      obtain rfl : d = owner := Option.some.inj (hd.symm.trans hget)
      have hdl := (h.limit d hmem).2
      simp only [owns, decide_eq_true_eq] at hown
      have hdown := aligned_down hint
      rw [PAGE_ALIGN_UP_add hdown (by omega) hle, PAGE_ALIGN_UP_of_aligned hle hal] at hins hfit
      exact h.take hmem hfit.1 hdown hal (by omega) hown.1 hfit.2 hins
    · exact helse hf

end shadows

/-! ## The host calls -/

/-- The page is mapped, by whatever. -/
def host.mapped (h : host) (p : Nat) : Prop := (h.page p).isSome = true

instance (h : host) (p : Nat) : Decidable (h.mapped p) := inferInstanceAs (Decidable (_ = _))

section host

variable {h h' : host} {a : answer} {r : Except Nat Nat}

theorem mapped_fill (h : host) (s e : Nat) (b : Option backing) :
    (h.fill s e b).mapped = setRange h.mapped s e (b.isSome = true) := by
  funext p
  by_cases hp : s ≤ p * PAGE_SIZE ∧ p * PAGE_SIZE < e <;>
    simp [host.mapped, host.fill, setRange, hp]

/-- A refused call leaves the host as it was; a call that is carried out had
    arguments of the right form. -/
theorem range_syscall_cases {addr length ret : Nat} {b : Option backing}
    (hs : range_syscall h a addr length b ret = (h', r)) :
    (h' = h ∧ (∃ errno, r = .error errno) ∧ (range_args addr length → a ≠ .accepts)) ∨
    (range_args addr length ∧ r = .ok ret ∧
      h' = h.fill addr (addr + PAGE_ALIGN_UP length) b) := by
  unfold range_syscall at hs
  cases a with
  | refuses errno =>
    obtain ⟨rfl, rfl⟩ := Prod.mk.inj hs
    exact .inl ⟨rfl, ⟨errno, rfl⟩, by simp⟩
  | accepts =>
    simp only at hs
    split_ifs at hs with hargs <;> obtain ⟨rfl, rfl⟩ := Prod.mk.inj hs
    · exact .inr ⟨hargs, rfl, rfl⟩
    · exact .inl ⟨rfl, ⟨_, rfl⟩, fun h => absurd h hargs⟩

theorem mremap_in_place_cases {old old_size new_size : Nat}
    (hs : mremap_in_place h a old old_size new_size = (h', r)) :
    (h' = h ∧ ∃ errno, r = .error errno) ∨
    (mremap_args old old_size new_size ∧ r = .ok old ∧ ∃ b : backing, h' =
      if old + PAGE_ALIGN_UP new_size ≤ old + PAGE_ALIGN_UP old_size then
        h.fill (old + PAGE_ALIGN_UP new_size) (old + PAGE_ALIGN_UP old_size) none
      else h.fill (old + PAGE_ALIGN_UP old_size) (old + PAGE_ALIGN_UP new_size) (some b)) := by
  unfold mremap_in_place at hs
  cases a with
  | refuses errno =>
    obtain ⟨rfl, rfl⟩ := Prod.mk.inj hs
    exact .inl ⟨rfl, errno, rfl⟩
  | accepts =>
    simp only at hs
    split at hs
    · obtain ⟨rfl, rfl⟩ := Prod.mk.inj hs
      exact .inl ⟨rfl, _, rfl⟩
    · next b _ =>
      split_ifs at hs with hargs hle <;> obtain ⟨rfl, rfl⟩ := Prod.mk.inj hs
      · exact .inr ⟨hargs.1, rfl, b, by rw [if_pos hle]⟩
      · exact .inr ⟨hargs.1, rfl, b, by rw [if_neg hle]⟩
      · exact .inl ⟨rfl, _, rfl⟩

/-- When the host agrees, only the arguments can make it refuse to grow in place. -/
theorem mremap_in_place_accepts {old old_size new_size : Nat} {b : backing} {errno : Nat}
    (hb : h.page (old / PAGE_SIZE) = some b) (hargs : mremap_args old old_size new_size)
    (hpos : 0 < old_size) (hlim : old + new_size ≤ TASK_SIZE) :
    mremap_in_place h .accepts old old_size new_size ≠ (h', .error errno) := by
  unfold mremap_in_place
  simp only [hb, hargs, hpos, hlim, and_self, if_true]
  split_ifs <;> simp

theorem mremap_fixed_cases {old old_size new_size new : Nat}
    (hs : mremap_fixed h a old old_size new_size new = (h', r)) :
    (h' = h ∧ ∃ errno, r = .error errno) ∨
    (mremap_args old old_size new_size ∧ range_args new new_size ∧ r = .ok new ∧
      (new + PAGE_ALIGN_UP new_size ≤ old ∨ old + PAGE_ALIGN_UP old_size ≤ new) ∧
      a = .accepts ∧ ∃ b, h.page (old / PAGE_SIZE) = some b ∧
      h' = (h.fill old (old + PAGE_ALIGN_UP old_size) none).fill new
        (new + PAGE_ALIGN_UP new_size) (some (b.shift old new))) := by
  unfold mremap_fixed at hs
  cases a with
  | refuses errno =>
    obtain ⟨rfl, rfl⟩ := Prod.mk.inj hs
    exact .inl ⟨rfl, errno, rfl⟩
  | accepts =>
    simp only at hs
    split at hs
    · obtain ⟨rfl, rfl⟩ := Prod.mk.inj hs
      exact .inl ⟨rfl, _, rfl⟩
    · next b hb =>
      split_ifs at hs with hargs <;> obtain ⟨rfl, rfl⟩ := Prod.mk.inj hs
      · exact .inr ⟨hargs.1, hargs.2.1, rfl, hargs.2.2, rfl, b, hb, rfl⟩
      · exact .inl ⟨rfl, _, rfl⟩

theorem range_args_of_ok {addr length ret x : Nat} {b : Option backing}
    (hok : (range_syscall h a addr length b ret).2 = .ok x) : range_args addr length := by
  rcases hsys : range_syscall h a addr length b ret with ⟨h', res⟩
  rcases range_syscall_cases hsys with ⟨-, ⟨errno, rfl⟩, -⟩ | ⟨hargs, -, -⟩
  · rw [hsys] at hok
    cases hok
  · exact hargs

theorem mremap_in_place_args {old old_size new_size x : Nat}
    (hok : (mremap_in_place h a old old_size new_size).2 = .ok x) :
    mremap_args old old_size new_size := by
  rcases hsys : mremap_in_place h a old old_size new_size with ⟨h', res⟩
  rcases mremap_in_place_cases hsys with ⟨-, errno, rfl⟩ | ⟨hargs, -⟩
  · rw [hsys] at hok
    cases hok
  · exact hargs

theorem mremap_fixed_args {old old_size new_size new x : Nat}
    (hok : (mremap_fixed h a old old_size new_size new).2 = .ok x) :
    mremap_args old old_size new_size ∧ range_args new new_size ∧ a = .accepts := by
  rcases hsys : mremap_fixed h a old old_size new_size new with ⟨h', res⟩
  rcases mremap_fixed_cases hsys with ⟨-, errno, rfl⟩ | ⟨hargs, hnew, -, -, ha, -⟩
  · rw [hsys] at hok
    cases hok
  · exact ⟨hargs, hnew, ha⟩

end host

end Umeq.Memory
