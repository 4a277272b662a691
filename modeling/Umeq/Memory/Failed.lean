import Umeq.Memory.Pool
import Umeq.Memory.Searches

/-! # What a failed call leaves behind

    `internal_mmap`, `internal_mremap` and `internal_shmat` mark an area in the list before they ask
    the host, and mark it as free again when the host refuses. That puts back what was there when
    the area was free: a `shmat` at an address of the guest does not test that, and an area of
    length 0 may be looked for in a descriptor that is empty itself.

    * `KeepsTypes`: every address that has a type keeps it.
    * `Paged`: what the calls keep, whatever the host answers. The area that `internal_mmap` gives
      back ends where the one that it has taken ends, because the searches return page boundaries.
-/

namespace Umeq.Memory

open Intervals

/-! ## The two requests -/

/-- Every address that has a type keeps it. -/
def KeepsTypes (l l' : List vma_desc) : Prop := ∀ x v, typeAt l x = some v → typeAt l' x = some v

theorem KeepsTypes.refl (l : List vma_desc) : KeepsTypes l l := fun _ _ hv => hv

section undo

variable {l : List vma_desc} {s e : Nat} {u v : area_update}

/-- An area is marked and given back. -/
theorem undo_keeps_iff (hl : Ordered l) (hu : insert_area l s e .VMA_MAP = some u)
    (hv : insert_area u.vma_list s e .VMA_UNMAP = some v) : KeepsTypes l v.vma_list ↔
      ∀ x, (x = s ∨ s ≤ x ∧ x < e) → typeAt l x ≠ some .VMA_MAP := by
  obtain ⟨t, ht⟩ := (owned_iff l s).mp (insert_area_owned hu).1
  rcases insert_area_cases hl hu with ⟨hlt, hret⟩ | ⟨hle, hmap, heq⟩ |
    ⟨hle, hfree, d, hd, hown, howne, hmem, hret⟩
  · -- the area is not empty: it is free afterwards
    have hret' := insert_area_some hret.ordered hlt hv
    have hafter : ∀ x t, typeAt l x = some t →
        typeAt v.vma_list x = some (if s ≤ x ∧ x < e then .VMA_UNMAP else t) := by
      intro x t hx
      rw [hret'.agree x _ (hret.agree x t hx)]
      by_cases hin : s ≤ x ∧ x < e
      · simp only [if_pos hin]
      · simp only [if_neg hin]
    constructor
    · intro h x hx hmap
      have := h x _ hmap
      rw [hafter x _ hmap, if_pos (by omega)] at this
      cases this
    · intro h x t hx
      rw [hafter x t hx]
      by_cases hin : s ≤ x ∧ x < e
      · rw [if_pos hin]
        cases t with
        | VMA_UNMAP => rfl
        | VMA_MAP => exact absurd hx (h x (.inr hin))
      · rw [if_neg hin]
  · -- an empty area in a mapped descriptor: only the second request does something
    rw [heq] at hv
    refine iff_of_false ?_ fun h => h s (.inl rfl) hmap
    intro h
    have hs := h s _ hmap
    rcases insert_area_cases hl hv with ⟨hlt, -⟩ | ⟨-, hfree, -⟩ | ⟨-, -, d, -, hown, -, -, hret⟩
    · omega
    · rw [hmap] at hfree
      cases hfree
    · simp only [owns, decide_eq_true_eq] at hown
      rw [hret.agree s _ hmap, if_pos (by omega)] at hs
      cases hs
  · -- an empty area in a free descriptor: both requests reach up to its end
    refine iff_of_true ?_ ?_
    · have hds : s < d.end_addr := by
        simp only [owns, decide_eq_true_eq] at hown
        exact hown.2
      have hus : typeAt u.vma_list s = some .VMA_MAP := by
        rw [hret.agree s t ht, if_pos (by omega)]
      rcases insert_area_cases hret.ordered hv with ⟨hlt, -⟩ | ⟨-, hus', -⟩ |
        ⟨-, -, d', hd', hown', -, -, hret'⟩
      · omega
      · rw [hus] at hus'
        cases hus'
      have hcov : Covers vma_desc.start_addr vma_desc.end_addr
          (⟨.VMA_MAP, s, d.end_addr⟩ : vma_desc) s := by
        unfold Covers
        simp only
        omega
      have hd' : d' = ⟨.VMA_MAP, s, d.end_addr⟩ := by
        have h1 := hret.ordered.owner_eq hd' ((owns_iff s d').mp hown')
        have h2 := hret.ordered.owner_eq hmem hcov
        exact Option.some.inj (h1.symm.trans h2)
      subst hd'
      intro x t' hx
      rw [hret'.agree x _ (hret.agree x t' hx)]
      by_cases hin : s ≤ x ∧ x < d.end_addr
      · -- the whole descriptor was free
        simp only [if_pos hin]
        obtain ⟨pre, post, rfl⟩ := List.append_of_mem hd
        have hdx : owns x d = true := by
          simp only [owns, decide_eq_true_eq] at hown ⊢
          omega
        rw [typeAt_owner hl hown] at hfree
        rw [typeAt_owner hl hdx] at hx
        rw [← hx]
        cases htype : d.type with
        | VMA_UNMAP => rfl
        | VMA_MAP => exact absurd (by rw [htype]) hfree
      · simp only [if_neg hin]
    · rintro x (rfl | hin)
      · exact hfree
      · omega

end undo

/-! ## Page boundaries -/

/-- What every call keeps, whatever the guest asks and the host answers. -/
structure Paged (vm : mmap_state) : Prop where
  orderly : Orderly vm.vma_list
  free_aligned : ∀ d ∈ vm.vma_list, d.type = .VMA_UNMAP → Aligned d.start_addr
  cursor : Aligned vm.kernel_cursor
  attached : ∀ d ∈ vm.shmat_list, Aligned d.start_addr

section paged

variable {L : layout} {s s' vm vm' : mmap_state} {length hint : Nat} {r : Option Nat}

theorem Paged.of_eq (h : Paged vm) (hl : vm'.vma_list = vm.vma_list)
    (hc : vm'.kernel_cursor = vm.kernel_cursor) (ha : vm'.shmat_list = vm.shmat_list) :
    Paged vm' :=
  ⟨hl ▸ h.orderly, hl ▸ h.free_aligned, hc ▸ h.cursor, ha ▸ h.attached⟩

/-- A free area begins where a request for free memory begins, or one for memory ends. -/
theorem Paged.insert (h : Paged vm) {a b : Nat} {t : vma_type} (hs : t = .VMA_UNMAP → Aligned a)
    (he : t = .VMA_MAP → Aligned b) (hins : vm.insert a b t = some vm') : Paged vm' := by
  obtain ⟨u, hu, hlist, hcur, hshm⟩ := insert_spec hins
  refine ⟨?_, ?_, hcur ▸ h.cursor, hshm ▸ h.attached⟩
  · rw [hlist]
    exact h.orderly.insert hu
  · rw [hlist]
    intro d hd hfree
    rcases insert_area_mem h.orderly.ordered hu hd with ⟨c, hc, htype, hstart⟩ |
      ⟨htype, hstart⟩ | ⟨htype, hstart⟩
    · rw [hstart]
      exact h.free_aligned c hc (htype ▸ hfree)
    · rw [hstart]
      exact hs (htype ▸ hfree)
    · rw [hstart]
      rw [hfree] at htype
      exact he ((t.eq_other_iff .VMA_UNMAP).mpr (Ne.symm htype))

theorem find_vma_paged (h : Paged s) (hf : find_vma s length = some (s', r)) :
    Paged s' ∧ ∀ x, r = some x → Aligned x := by
  unfold find_vma at hf
  simp only at hf
  split at hf
  · obtain ⟨rfl, rfl⟩ := Prod.mk.inj (Option.some.inj hf)
    exact ⟨h, by simp⟩
  · next desc hfind =>
    obtain ⟨v, hins, hres⟩ := Option.bind_eq_some_iff.mp hf
    obtain ⟨rfl, rfl⟩ := Prod.mk.inj (Option.some.inj hres)
    obtain ⟨hfree, -⟩ : desc.type = .VMA_UNMAP ∧
        sub64 desc.end_addr desc.start_addr ≥ PAGE_ALIGN_UP length := by
      simpa using List.find?_some hfind
    have hstart := h.free_aligned desc (List.mem_of_find?_eq_some hfind) hfree
    refine ⟨h.insert (by simp) (fun _ => hstart.add64 (aligned_up length)) hins, ?_⟩
    rintro x hx
    obtain rfl := Option.some.inj hx
    exact hstart

theorem choose_paged (hL : L.cursor_ok) (h : Paged s)
    (hf : find_vma_with_kernel_choose L s length = some (s', r)) :
    Paged s' ∧ ∀ x, r = some x → Aligned x := by
  obtain ⟨i, hi, hf⟩ := Option.bind_eq_some_iff.mp hf
  simp only at hf
  split at hf
  · have h' : Paged { s with
        is_end_of_vm_reach := true
        kernel_cursor := L.KERNEL_CHOOSE_START_ADDR } :=
      ⟨h.orderly, h.free_aligned, hL.1, h.attached⟩
    exact find_vma_paged h' hf
  · next desc hfind =>
    obtain ⟨v, hins, hres⟩ := Option.bind_eq_some_iff.mp hf
    obtain ⟨rfl, rfl⟩ := Prod.mk.inj (Option.some.inj hres)
    have hmem := List.mem_of_mem_drop (List.mem_of_find?_eq_some hfind)
    obtain ⟨hfree, -⟩ : desc.type = .VMA_UNMAP ∧ sub64 desc.end_addr
        (choose_start s.kernel_cursor desc) ≥ PAGE_ALIGN_UP length := by
      simpa using List.find?_some hfind
    have hstart : Aligned (choose_start s.kernel_cursor desc) := by
      unfold choose_start
      split_ifs
      · exact h.free_aligned desc hmem hfree
      · exact h.cursor
    have hv := h.insert (by simp) (fun _ => hstart.add64 (aligned_up length)) hins
    refine ⟨⟨hv.orderly, hv.free_aligned, next_cursor_aligned hL hstart (aligned_up length),
      hv.attached⟩, ?_⟩
    rintro x hx
    obtain rfl := Option.some.inj hx
    exact hstart

theorem hint_paged (h : Paged s) (hf : find_vma_with_hint s length hint = some (s', r)) :
    Paged s' ∧ ∀ x, r = some x → Aligned x := by
  unfold find_vma_with_hint at hf
  simp only at hf
  split at hf
  · exact find_vma_paged h hf
  · split_ifs at hf
    · obtain ⟨v, hins, hres⟩ := Option.bind_eq_some_iff.mp hf
      obtain ⟨rfl, rfl⟩ := Prod.mk.inj (Option.some.inj hres)
      refine ⟨h.insert (by simp) (fun _ => aligned_up _) hins, ?_⟩
      rintro x hx
      obtain rfl := Option.some.inj hx
      exact aligned_down hint
    · exact find_vma_paged h hf

theorem search_paged (hL : L.cursor_ok) {addr : Nat} (h : Paged s)
    (hf : mmap_search L s addr length = some (s', r)) :
    Paged s' ∧ ∀ x, r = some x → Aligned x := by
  unfold mmap_search at hf
  split_ifs at hf
  · exact choose_paged hL h hf
  · exact hint_paged h hf

end paged

section calls

variable {L : layout} {w w' : world} {addr length old old_size new_size new : Nat}
  {prot_exec fixed maymove : Bool} {a a' : answer} {r : Except Nat Nat}

theorem mmap_paged (hL : L.cursor_ok) (h : Paged w.vm)
    (hcall : internal_mmap L w addr length prot_exec fixed a = some (w', r)) : Paged w'.vm := by
  unfold internal_mmap at hcall
  split_ifs at hcall
  · rcases hsys : mmap_syscall w.host a addr length with ⟨host, errno | x⟩ <;>
      simp only [hsys] at hcall
    · obtain ⟨rfl, rfl⟩ := Prod.mk.inj (Option.some.inj hcall)
      exact h
    · obtain ⟨vm, hins, hcall⟩ := Option.bind_eq_some_iff.mp hcall
      obtain ⟨rfl, rfl⟩ := Prod.mk.inj (Option.some.inj hcall)
      exact h.insert (by simp) (fun _ => aligned_up _) hins
  · obtain ⟨⟨vm, res_vma⟩, hfind, hcall⟩ := Option.bind_eq_some_iff.mp hcall
    obtain ⟨hvm, hal⟩ := search_paged hL h hfind
    cases res_vma with
    | none =>
      obtain ⟨rfl, rfl⟩ := Prod.mk.inj (Option.some.inj hcall)
      exact hvm
    | some start =>
      rcases hsys : mmap_syscall w.host a start length with ⟨host, errno | x⟩ <;>
        simp only [hsys] at hcall
      · obtain ⟨vm', hins, hcall⟩ := Option.bind_eq_some_iff.mp hcall
        obtain ⟨rfl, rfl⟩ := Prod.mk.inj (Option.some.inj hcall)
        exact hvm.insert (fun _ => hal start rfl) (by simp) hins
      · obtain ⟨rfl, rfl⟩ := Prod.mk.inj (Option.some.inj hcall)
        exact hvm.of_eq rfl rfl rfl

theorem munmap_paged (h : Paged w.vm) (hcall : internal_munmap w addr length a = some (w', r)) :
    Paged w'.vm := by
  unfold internal_munmap at hcall
  rcases hsys : munmap w.host a addr length with ⟨host, errno | x⟩ <;> simp only [hsys] at hcall
  · obtain ⟨rfl, rfl⟩ := Prod.mk.inj (Option.some.inj hcall)
    exact h
  · obtain ⟨vm, hins, hcall⟩ := Option.bind_eq_some_iff.mp hcall
    obtain ⟨rfl, rfl⟩ := Prod.mk.inj (Option.some.inj hcall)
    have hargs : range_args addr length := @range_args_of_ok w.host a addr length 0 x none
      (by rw [show range_syscall w.host a addr length none 0 = _ from hsys])
    exact h.insert (fun _ => hargs.1) (by simp) hins

theorem mremap_to_paged (h : Paged w.vm)
    (hcall : mremap_to w old old_size new_size new a = some (w', r)) : Paged w'.vm := by
  unfold mremap_to at hcall
  rcases hsys : mremap_fixed w.host a old old_size new_size new with ⟨host, errno | x⟩ <;>
    simp only [hsys] at hcall
  · obtain ⟨rfl, rfl⟩ := Prod.mk.inj (Option.some.inj hcall)
    exact h
  · obtain ⟨vm, hins, hcall⟩ := Option.bind_eq_some_iff.mp hcall
    obtain ⟨vm', hins', hcall⟩ := Option.bind_eq_some_iff.mp hcall
    obtain ⟨rfl, rfl⟩ := Prod.mk.inj (Option.some.inj hcall)
    have hargs := (mremap_fixed_args (by rw [hsys])).1
    exact (h.insert (fun _ => hargs.1) (by simp) hins).insert (by simp) (fun _ => aligned_up _) hins'

theorem mremap_shrink_paged (h : Paged w.vm) (hold : Aligned old)
    (hcall : mremap_shrink w old old_size new_size a = some (w', r)) : Paged w'.vm := by
  unfold mremap_shrink at hcall
  rcases hsys : mremap_in_place w.host a old old_size new_size with ⟨host, errno | x⟩ <;>
    simp only [hsys] at hcall
  · obtain ⟨rfl, rfl⟩ := Prod.mk.inj (Option.some.inj hcall)
    exact h
  · split_ifs at hcall
    · obtain ⟨vm, hins, hcall⟩ := Option.bind_eq_some_iff.mp hcall
      obtain ⟨rfl, rfl⟩ := Prod.mk.inj (Option.some.inj hcall)
      exact h.insert (fun _ => hold.add64 (aligned_up _)) (by simp) hins
    · obtain ⟨rfl, rfl⟩ := Prod.mk.inj (Option.some.inj hcall)
      exact h

theorem mremap_grow_paged (h : Paged w.vm) (hold : Aligned old)
    (hcall : mremap_grow w old old_size new_size a = some (w', r)) : Paged w'.vm := by
  unfold mremap_grow at hcall
  obtain ⟨free, -, hcall⟩ := Option.bind_eq_some_iff.mp hcall
  split_ifs at hcall
  · rcases hsys : mremap_in_place w.host a old old_size new_size with ⟨host, errno | x⟩ <;>
      simp only [hsys] at hcall
    · obtain ⟨rfl, rfl⟩ := Prod.mk.inj (Option.some.inj hcall)
      exact h
    · obtain ⟨vm, hins, hcall⟩ := Option.bind_eq_some_iff.mp hcall
      obtain ⟨rfl, rfl⟩ := Prod.mk.inj (Option.some.inj hcall)
      exact h.insert (by simp) (fun _ => hold.add64 (aligned_up _)) hins
  · obtain ⟨rfl, rfl⟩ := Prod.mk.inj (Option.some.inj hcall)
    exact h

theorem mremap_move_paged (hL : L.cursor_ok) (h : Paged w.vm) (hold : Aligned old)
    (hcall : mremap_move L w old old_size new_size a = some (w', r)) : Paged w'.vm := by
  unfold mremap_move at hcall
  obtain ⟨⟨vm, res_vma⟩, hfind, hcall⟩ := Option.bind_eq_some_iff.mp hcall
  obtain ⟨hvm, hal⟩ := choose_paged hL h hfind
  cases res_vma with
  | none =>
    obtain ⟨rfl, rfl⟩ := Prod.mk.inj (Option.some.inj hcall)
    exact hvm
  | some start =>
    rcases hsys : mremap_fixed w.host a old old_size new_size start with ⟨host, errno | x⟩ <;>
      simp only [hsys] at hcall <;>
      obtain ⟨vm', hins, hcall⟩ := Option.bind_eq_some_iff.mp hcall <;>
      obtain ⟨rfl, rfl⟩ := Prod.mk.inj (Option.some.inj hcall)
    · exact hvm.insert (fun _ => hal start rfl) (by simp) hins
    · exact hvm.insert (fun _ => hold) (by simp) hins

theorem mremap_paged (hL : L.cursor_ok) (h : Paged w.vm)
    (hcall : internal_mremap L w old old_size new_size maymove fixed new a a' = some (w', r)) :
    Paged w'.vm := by
  unfold internal_mremap at hcall
  by_cases hal : PAGE_ALIGN_DOWN old = old
  · rw [if_neg (not_not.mpr hal)] at hcall
    have hold : Aligned old := hal ▸ aligned_down old
    split_ifs at hcall
    · exact mremap_to_paged h hcall
    · exact mremap_shrink_paged h hold hcall
    · obtain ⟨⟨v, res⟩, hgrow, hcall⟩ := Option.bind_eq_some_iff.mp hcall
      have hv := mremap_grow_paged h hold hgrow
      cases res with
      | ok x =>
        obtain ⟨rfl, rfl⟩ := Prod.mk.inj (Option.some.inj hcall)
        exact hv
      | error errno => exact mremap_move_paged hL hv hold hcall
    · obtain ⟨⟨v, res⟩, hgrow, hcall⟩ := Option.bind_eq_some_iff.mp hcall
      have hv := mremap_grow_paged h hold hgrow
      cases res <;> obtain ⟨rfl, rfl⟩ := Prod.mk.inj (Option.some.inj hcall) <;> exact hv
    · obtain ⟨rfl, rfl⟩ := Prod.mk.inj (Option.some.inj hcall)
      exact h
  · rw [if_pos hal] at hcall
    obtain ⟨rfl, rfl⟩ := Prod.mk.inj (Option.some.inj hcall)
    exact h

theorem shm_insert_paged (hL : L.cursor_ok) {s e : Nat} (h : Paged w.vm) (hs : Aligned s)
    (hcall : shm_insert L w s e a = some w') : Paged w'.vm := by
  obtain ⟨v, hget, hcall⟩ := Option.bind_eq_some_iff.mp hcall
  obtain rfl := Option.some.inj hcall
  have hv : Paged v.vm := by
    unfold get_shmat_free_desc at hget
    split_ifs at hget
    · obtain ⟨⟨u, res⟩, hmap, hget⟩ := Option.bind_eq_some_iff.mp hget
      have hu := mmap_paged hL h hmap
      cases res with
      | error errno => cases hget
      | ok x =>
        obtain rfl := Option.some.inj hget
        exact hu.of_eq rfl rfl rfl
    · obtain rfl := Option.some.inj hget
      exact h.of_eq rfl rfl rfl
  refine ⟨hv.orderly, hv.free_aligned, hv.cursor, ?_⟩
  intro d hd
  rcases List.mem_cons.mp hd with rfl | hd
  · exact hs
  · exact hv.attached d hd

theorem shmat_place_paged (hL : L.cursor_ok) {s s' : mmap_state} {res : Option Nat} (h : Paged s)
    (hlen : Aligned length) (hf : shmat_place L s addr length = some (s', res)) :
    Paged s' ∧ ∀ x, res = some x → Aligned x := by
  unfold shmat_place at hf
  split_ifs at hf
  · exact choose_paged hL h hf
  · obtain ⟨v, hins, hres⟩ := Option.bind_eq_some_iff.mp hf
    obtain ⟨rfl, rfl⟩ := Prod.mk.inj (Option.some.inj hres)
    refine ⟨h.insert (by simp) (fun _ => (aligned_down _).add64 hlen) hins, ?_⟩
    rintro x hx
    obtain rfl := Option.some.inj hx
    exact aligned_down addr

theorem shmat_paged (hL : L.cursor_ok) {seg : Nat} {stat : Except Nat Nat} (h : Paged w.vm)
    (hcall : internal_shmat L w seg addr stat a a' = some (w', r)) : Paged w'.vm := by
  unfold internal_shmat at hcall
  cases stat with
  | error errno =>
    obtain ⟨rfl, rfl⟩ := Prod.mk.inj (Option.some.inj hcall)
    exact h
  | ok segsz =>
    obtain ⟨⟨vm, res⟩, hplace, hcall⟩ := Option.bind_eq_some_iff.mp hcall
    obtain ⟨hvm, hal⟩ := shmat_place_paged hL h (aligned_up segsz) hplace
    cases res with
    | none =>
      obtain ⟨rfl, rfl⟩ := Prod.mk.inj (Option.some.inj hcall)
      exact hvm
    | some start =>
      rcases hsys : shmat_syscall w.host a seg segsz start with ⟨host, errno | x⟩ <;>
        simp only [hsys] at hcall <;>
        obtain ⟨vm', hins, hcall⟩ := Option.bind_eq_some_iff.mp hcall <;>
        obtain ⟨rfl, rfl⟩ := Prod.mk.inj (Option.some.inj hcall)
      · exact hvm.insert (fun _ => hal start rfl) (by simp) hins
      · exact shm_insert_paged hL hvm (hal start rfl) hins

theorem shmdt_paged {ans : Except Nat Nat} (h : Paged w.vm)
    (hcall : internal_shmdt w addr ans = some (w', r)) : Paged w'.vm := by
  unfold internal_shmdt shm_remove at hcall
  rcases hsys : shmdt_syscall w.host ans addr with ⟨host, errno | x⟩ <;> simp only [hsys] at hcall
  · obtain ⟨rfl, rfl⟩ := Prod.mk.inj (Option.some.inj hcall)
    exact h
  · obtain ⟨vm, hremove, hcall⟩ := Option.bind_eq_some_iff.mp hcall
    obtain ⟨rfl, rfl⟩ := Prod.mk.inj (Option.some.inj hcall)
    split at hremove
    · obtain rfl := Option.some.inj hremove
      exact h
    · next desc hfind =>
      obtain ⟨v, hins, hremove⟩ := Option.bind_eq_some_iff.mp hremove
      obtain rfl := Option.some.inj hremove
      have hv := h.insert (fun _ => h.attached desc (List.mem_of_find?_eq_some hfind)) (by simp) hins
      exact ⟨hv.orderly, hv.free_aligned, hv.cursor,
        fun d hd => hv.attached d (List.mem_of_mem_erase hd)⟩

theorem refill_paged (hL : L.cursor_ok) (h : Paged w.vm)
    (hcall : allocate_more_desc_memory_if_needed L w a = some w') : Paged w'.vm := by
  unfold allocate_more_desc_memory_if_needed at hcall
  split_ifs at hcall
  · obtain rfl := Option.some.inj hcall
    exact h
  · obtain ⟨⟨u, res⟩, hmap, hcall⟩ := Option.bind_eq_some_iff.mp hcall
    have hu := mmap_paged hL h hmap
    cases res with
    | error errno => cases hcall
    | ok x =>
      obtain rfl := Option.some.inj hcall
      exact hu.of_eq rfl rfl rfl

theorem call_paged (hL : L.cursor_ok) (c : call) (h : Paged w.vm) (hexec : c.exec L w = some w') :
    Paged w'.vm := by
  cases c with
  | mmap addr length prot_exec fixed a =>
    obtain ⟨⟨v, r⟩, hcall, rfl⟩ := Option.map_eq_some_iff.mp hexec
    exact mmap_paged hL h hcall
  | munmap addr length a =>
    obtain ⟨⟨v, r⟩, hcall, rfl⟩ := Option.map_eq_some_iff.mp hexec
    exact munmap_paged h hcall
  | mremap old old_size new_size maymove fixed new a a' =>
    obtain ⟨⟨v, r⟩, hcall, rfl⟩ := Option.map_eq_some_iff.mp hexec
    exact mremap_paged hL h hcall
  | shmat seg addr stat a a' =>
    obtain ⟨⟨v, r⟩, hcall, rfl⟩ := Option.map_eq_some_iff.mp hexec
    exact shmat_paged hL h hcall
  | shmdt addr ans =>
    obtain ⟨⟨v, r⟩, hcall, rfl⟩ := Option.map_eq_some_iff.mp hexec
    exact shmdt_paged h hcall
  | refill a => exact refill_paged hL h hexec

end calls

section runs

variable {L : layout} {w w' : world} {p p' : pool_state} {ans : unmap_answers}

theorem collect_paged {ds ds' : List ongoing_desc} (h : Paged w.vm)
    (hcall : collect_ongoing_unmap ans ds w = some (w', ds')) : Paged w'.vm := by
  induction ds generalizing w ds' with
  | nil =>
    obtain ⟨rfl, rfl⟩ := Prod.mk.inj (Option.some.inj hcall)
    exact h
  | cons d ds ih =>
    unfold collect_ongoing_unmap at hcall
    split_ifs at hcall
    · rcases hsys : munmap w.host (ans d) d.start_addr (sub64 d.end_addr d.start_addr) with
        ⟨host, errno | x⟩ <;> simp only [hsys] at hcall
      · cases hcall
      · obtain ⟨vm, hins, hcall⟩ := Option.bind_eq_some_iff.mp hcall
        have hargs : range_args d.start_addr (sub64 d.end_addr d.start_addr) :=
          @range_args_of_ok w.host (ans d) _ _ 0 x none
            (by rw [show range_syscall w.host (ans d) _ _ none 0 = _ from hsys])
        have hvm := h.insert (fun _ => hargs.1) (by simp) hins
        refine ih ?_ hcall
        exact hvm.of_eq rfl rfl rfl
    · obtain ⟨⟨v, rest⟩, hrest, hcall⟩ := Option.bind_eq_some_iff.mp hcall
      obtain ⟨rfl, rfl⟩ := Prod.mk.inj (Option.some.inj hcall)
      exact ih h hrest

theorem event_paged (hL : L.cursor_ok) (ev : event) (h : Paged p.world.vm)
    (hexec : ev.exec L p = some p') : Paged p'.world.vm := by
  cases ev with
  | finish i =>
    obtain rfl := Option.some.inj hexec
    exact h
  | enter e ans a =>
    obtain ⟨v, hbody, hexec⟩ := Option.bind_eq_some_iff.mp hexec
    have hv : Paged v.world.vm := by
      cases e with
      | lazily c =>
        obtain ⟨w, hcall, rfl⟩ := Option.map_eq_some_iff.mp hbody
        exact call_paged hL c h hcall
      | eagerly c =>
        obtain ⟨w, hcall, rfl⟩ := Option.map_eq_some_iff.mp hbody
        exact call_paged hL c h hcall
      | munmap_guest_ongoing addr length =>
        obtain ⟨vm, hget, hbody⟩ := Option.bind_eq_some_iff.mp hbody
        obtain rfl := Option.some.inj hbody
        have hlist : vm.vma_list = p.world.vm.vma_list := by
          unfold arm64_get_free_desc at hget
          split_ifs at hget <;> obtain rfl := Option.some.inj hget <;> rfl
        obtain ⟨hcur, hshm⟩ := @get_free_descs_frame _ _ 1 (by
          show (arm64_get_free_desc p.world.vm).bind _ = some vm
          rw [hget]
          rfl)
        exact h.of_eq hlist hcur hshm
    split_ifs at hexec
    · obtain ⟨⟨w, rest⟩, hcollect, hexec⟩ := Option.bind_eq_some_iff.mp hexec
      obtain ⟨w', hrefill, hexec⟩ := Option.bind_eq_some_iff.mp hexec
      obtain rfl := Option.some.inj hexec
      exact refill_paged hL (collect_paged hv hcollect) hrefill
    · obtain rfl := Option.some.inj hexec
      exact hv

theorem init_paged (T : target) : Paged (entry_points T.layout).init.world.vm := by
  refine ⟨(init_tiling T).orderly, ?_, (target_cursor_ok T).1, fun d hd => by cases hd⟩
  show ∀ d ∈ T.layout.vma_init, d.type = .VMA_UNMAP → Aligned d.start_addr
  cases T <;> decide

def PagedIn (p : pool_state) : Prop := Paged p.world.vm

theorem reach_paged (T : target) {p : pool_state}
    (h : (entry_points T.layout).Reach (fun _ _ => True) p) : Paged p.world.vm := by
  have hp : PagedIn p := by
    refine h.invariant (init_paged T) ?_
    intro p ev p' hp _ hexec
    exact event_paged (target_cursor_ok T) ev hp hexec
  exact hp

end runs

/-! ## Failed calls -/

/-- A `mmap` for an area of length 0 is not answered with the place of an empty descriptor in
    front of a mapped one. -/
def mmap_undone (s : mmap_state) (addr_p length_p : Nat) (map_fixed : Bool) : Prop :=
  ¬ (addr_p ≠ 0 ∧ map_fixed) → PAGE_ALIGN_UP length_p = 0 →
    if addr_p = 0 then choose_at s 0 (fun x => typeAt s.vma_list x ≠ some .VMA_MAP)
    else ¬ hint_fits s length_p addr_p →
      find_vma_at s.vma_list 0 (fun x => typeAt s.vma_list x ≠ some .VMA_MAP)

/-- For a `shmat` at an address of the guest no byte of the area is mapped, the first one
    included; else it is as for a `mmap`. -/
def shmat_undone (s : mmap_state) (shmaddr_p : Nat) (stat : Except Nat Nat) : Prop :=
  ∀ segsz, stat = .ok segsz →
    if shmaddr_p = 0 then
      PAGE_ALIGN_UP segsz = 0 → choose_at s 0 (fun x => typeAt s.vma_list x ≠ some .VMA_MAP)
    else
      ∀ x, (x = PAGE_ALIGN_DOWN shmaddr_p ∨ PAGE_ALIGN_DOWN shmaddr_p ≤ x ∧
        x < add64 (PAGE_ALIGN_DOWN shmaddr_p) (PAGE_ALIGN_UP segsz)) →
          typeAt s.vma_list x ≠ some .VMA_MAP

section failed

variable {L : layout} {s vm vm' : mmap_state} {w w' : world} {q : request}
  {addr length n old old_size new_size new errno : Nat} {prot_exec fixed maymove : Bool}
  {a a' : answer}

/-- The area of a request is marked and given back. -/
theorem Marked.undo (h : Marked s vm q) (hl : Ordered s.vma_list)
    (hins : vm.insert q.start_addr q.end_addr .VMA_UNMAP = some vm') :
    KeepsTypes s.vma_list vm'.vma_list ↔
      ∀ x, (x = q.start_addr ∨ q.start_addr ≤ x ∧ x < q.end_addr) →
        typeAt s.vma_list x ≠ some .VMA_MAP := by
  obtain ⟨u, hu, hlist⟩ := h
  obtain ⟨v, hv, hlist', -⟩ := insert_spec hins
  rw [hlist] at hv
  rw [hlist']
  exact undo_keeps_iff hl hu hv

/-- It was free, so only its start matters, and only when it is empty. -/
theorem Marked.undo_fills (h : Marked s vm q) (hl : Orderly s.vma_list)
    (hq : ∀ x, q.start_addr ≤ x → x < q.end_addr → typeAt s.vma_list x = some .VMA_UNMAP)
    (hins : vm.insert q.start_addr q.end_addr .VMA_UNMAP = some vm') :
    KeepsTypes s.vma_list vm'.vma_list ↔ typeAt s.vma_list q.start_addr ≠ some .VMA_MAP := by
  rw [h.undo hl.ordered hins]
  constructor
  · intro hall
    exact hall _ (.inl rfl)
  · rintro hstart x (rfl | hx)
    · exact hstart
    · rw [hq x hx.1 hx.2]
      simp

theorem Fills.free (h : Fills s.vma_list n q) (hl : Orderly s.vma_list) :
    ∀ x, q.start_addr ≤ x → x < q.end_addr → typeAt s.vma_list x = some .VMA_UNMAP := by
  intro x hlo hhi
  rw [h.end_addr] at hhi
  exact h.range.free hl.ordered hlo hhi

theorem Fills.start_free (h : Fills s.vma_list n q) (hl : Orderly s.vma_list) (hn : 0 < n) :
    typeAt s.vma_list q.start_addr = some .VMA_UNMAP :=
  h.range.free hl.ordered (Nat.le_refl _) (Nat.lt_add_of_pos_right hn)

theorem up_add64 {b : Nat} (ha : Aligned addr) :
    PAGE_ALIGN_UP (add64 addr b) = add64 addr (PAGE_ALIGN_UP b) := by
  unfold PAGE_ALIGN_UP PAGE_ALIGN_DOWN Aligned add64 PAGE_SIZE at *
  omega

/-- What a search has marked, and where the range ends that is given back. -/
structure Searched (s : mmap_state) (length : Nat) (vm : mmap_state) (q : request) : Prop where
  marked : Marked s vm q
  free : ∀ x, q.start_addr ≤ x → x < q.end_addr → typeAt s.vma_list x = some .VMA_UNMAP
  end_addr : Aligned q.start_addr → q.end_addr = PAGE_ALIGN_UP (add64 q.start_addr length)

theorem Fills.searched (h : Fills s.vma_list (PAGE_ALIGN_UP length) q) (hl : Orderly s.vma_list)
    (hm : Marked s vm q) : Searched s length vm q := by
  refine ⟨hm, h.free hl, ?_⟩
  intro hal
  have hlim := h.range.limit
  rw [up_add64 hal, add64_eq (by omega) (by omega)]
  exact h.end_addr

theorem choose_searched (hl : Orderly s.vma_list) (hq : choose_request L s length = some q)
    (hf : find_vma_with_kernel_choose L s length = some (vm, some addr)) :
    Searched s length vm q := by
  have hfills := choose_fills hl hq
  have htrace := choose_trace L s length
  rw [hq, hf] at htrace
  exact hfills.searched hl (Trace.marked htrace hfills.vma_list (choose_request_type hq))

theorem hint_searched {hint : Nat} (hl : Orderly s.vma_list)
    (hq : hint_request s length hint = some q)
    (hf : find_vma_with_hint s length hint = some (vm, some addr)) : Searched s length vm q := by
  have htrace := hint_trace s length hint
  rw [hq, hf] at htrace
  by_cases hfits : hint_fits s length hint
  · rw [hint_request_fits hl.ordered hfits] at hq
    obtain rfl := Option.some.inj hq
    refine ⟨Trace.marked htrace rfl rfl, ?_, ?_⟩
    · intro x hlo hhi
      obtain ⟨d, hd, hown, hfree, hend⟩ := hfits
      obtain ⟨pre, post, hsplit⟩ := List.append_of_mem hd
      have hx : owns x d = true := by
        simp only [owns, decide_eq_true_eq] at hown hlo hhi ⊢
        omega
      rw [hsplit, typeAt_owner (hsplit ▸ hl.ordered) hx, hfree]
    · intro _
      have hal := aligned_down hint
      show PAGE_ALIGN_UP (add64 (PAGE_ALIGN_DOWN hint) (PAGE_ALIGN_UP length)) =
        PAGE_ALIGN_UP (add64 (PAGE_ALIGN_DOWN hint) length)
      rw [up_add64 hal, up_add64 hal, PAGE_ALIGN_UP_up]
  · rw [hint_request_misses hfits] at hq
    have hfills := find_vma_fills hl hq
    rw [PAGE_ALIGN_UP_up] at hfills
    exact hfills.searched hl (Trace.marked htrace hfills.vma_list (find_vma_request_type hq))

theorem search_searched (hl : Orderly s.vma_list) {start : Nat}
    (hq : search_request L s addr length = some q)
    (hf : mmap_search L s addr length = some (vm, some start)) : Searched s length vm q := by
  unfold search_request at hq
  unfold mmap_search at hf
  split_ifs at hq hf
  · exact choose_searched hl hq hf
  · exact hint_searched hl hq hf

theorem choose_undone_iff (hl : Orderly s.vma_list) :
    (PAGE_ALIGN_UP length = 0 → choose_at s 0 (fun x => typeAt s.vma_list x ≠ some .VMA_MAP)) ↔
      ∀ q, choose_request L s length = some q →
        typeAt s.vma_list q.start_addr ≠ some .VMA_MAP := by
  rw [← choose_at_iff L s length fun x => typeAt s.vma_list x ≠ some .VMA_MAP]
  by_cases hzero : PAGE_ALIGN_UP length = 0
  · rw [hzero]
    simp
  · refine iff_of_true (fun h => absurd h hzero) ?_
    rw [choose_at_iff L s length]
    intro q hq
    rw [(choose_fills hl hq).start_free hl (Nat.pos_of_ne_zero hzero)]
    simp

theorem find_vma_undone_iff (hl : Orderly s.vma_list) :
    (PAGE_ALIGN_UP length = 0 →
      find_vma_at s.vma_list 0 (fun x => typeAt s.vma_list x ≠ some .VMA_MAP)) ↔
      ∀ q, find_vma_request s length = some q →
        typeAt s.vma_list q.start_addr ≠ some .VMA_MAP := by
  rw [← find_vma_at_iff s length fun x => typeAt s.vma_list x ≠ some .VMA_MAP]
  by_cases hzero : PAGE_ALIGN_UP length = 0
  · rw [hzero]
    simp
  · refine iff_of_true (fun h => absurd h hzero) ?_
    rw [find_vma_at_iff s length]
    intro q hq
    rw [(find_vma_fills hl hq).start_free hl (Nat.pos_of_ne_zero hzero)]
    simp

theorem mmap_undone_iff (L : layout) (hl : Orderly s.vma_list) (hfixed : ¬ (addr ≠ 0 ∧ fixed)) :
    mmap_undone s addr length fixed ↔ ∀ q, search_request L s addr length = some q →
      typeAt s.vma_list q.start_addr ≠ some .VMA_MAP := by
  unfold mmap_undone search_request
  rw [forall_prop_of_true hfixed]
  by_cases haddr : addr = 0
  · simp only [if_pos haddr]
    exact choose_undone_iff hl
  · simp only [if_neg haddr]
    by_cases hfits : hint_fits s length addr
    · refine iff_of_true (fun _ h => absurd hfits h) ?_
      intro q hq
      rw [hint_request_fits hl.ordered hfits] at hq
      obtain rfl := Option.some.inj hq
      obtain ⟨d, hd, hown, hfree, -⟩ := hfits
      obtain ⟨pre, post, hsplit⟩ := List.append_of_mem hd
      rw [hsplit, typeAt_owner (hsplit ▸ hl.ordered) hown, hfree]
      simp
    · rw [hint_request_misses hfits, ← find_vma_undone_iff hl, PAGE_ALIGN_UP_up]
      exact ⟨fun h hzero => h hzero hfits, fun h hzero _ => h hzero⟩

/-- A search that finds nothing makes no request. -/
theorem Trace.nothing (ht : Trace s [] (some vm)) : KeepsTypes s.vma_list vm.vma_list := by
  cases ht with
  | done h =>
    rw [h.vma_list]
    exact .refl _

theorem mmap_failed (hL : L.cursor_ok) (h : Paged w.vm)
    (hcall : internal_mmap L w addr length prot_exec fixed a = some (w', .error errno)) :
    KeepsTypes w.vm.vma_list w'.vm.vma_list ↔ mmap_undone w.vm addr length fixed := by
  unfold internal_mmap at hcall
  split_ifs at hcall with hfixed
  · rcases hsys : mmap_syscall w.host a addr length with ⟨host, errno' | x⟩ <;>
      simp only [hsys] at hcall
    · obtain ⟨rfl, -⟩ := Prod.mk.inj (Option.some.inj hcall)
      exact iff_of_true (.refl _) fun hnot => absurd hfixed hnot
    · obtain ⟨vm, -, hcall⟩ := Option.bind_eq_some_iff.mp hcall
      cases (Prod.mk.inj (Option.some.inj hcall)).2
  · rw [mmap_undone_iff L h.orderly hfixed]
    obtain ⟨⟨vm, res_vma⟩, hfind, hcall⟩ := Option.bind_eq_some_iff.mp hcall
    obtain ⟨-, hal⟩ := search_paged hL h hfind
    have hr : res_vma = (search_request L w.vm addr length).map (·.start_addr) := by
      unfold mmap_search at hfind
      unfold search_request
      split_ifs at hfind ⊢
      · exact (choose_moved hfind).1
      · exact (hint_result hfind).1
    cases res_vma with
    | none =>
      obtain ⟨rfl, -⟩ := Prod.mk.inj (Option.some.inj hcall)
      have hnone := Option.map_eq_none_iff.mp hr.symm
      have htrace := search_trace L w.vm addr length
      rw [hnone, hfind] at htrace
      refine iff_of_true (Trace.nothing htrace) ?_
      rw [hnone]
      simp
    | some start =>
      obtain ⟨q, hq, rfl⟩ := Option.map_eq_some_iff.mp hr.symm
      have hsearched := search_searched h.orderly hq hfind
      rcases hsys : mmap_syscall w.host a q.start_addr length with ⟨host, errno' | x⟩ <;>
        simp only [hsys] at hcall
      · obtain ⟨vm', hins, hcall⟩ := Option.bind_eq_some_iff.mp hcall
        obtain ⟨rfl, -⟩ := Prod.mk.inj (Option.some.inj hcall)
        rw [← hsearched.end_addr (hal _ rfl)] at hins
        rw [hsearched.marked.undo_fills h.orderly hsearched.free hins, hq]
        simp
      · cases (Prod.mk.inj (Option.some.inj hcall)).2

theorem mremap_move_failed (h : Paged w.vm) (hpos : 0 < PAGE_ALIGN_UP new_size)
    (hcall : mremap_move L w old old_size new_size a = some (w', .error errno)) :
    KeepsTypes w.vm.vma_list w'.vm.vma_list := by
  unfold mremap_move at hcall
  obtain ⟨⟨vm, res_vma⟩, hfind, hcall⟩ := Option.bind_eq_some_iff.mp hcall
  have hr := (choose_moved hfind).1
  cases res_vma with
  | none =>
    obtain ⟨rfl, -⟩ := Prod.mk.inj (Option.some.inj hcall)
    have htrace := choose_trace L w.vm new_size
    rw [Option.map_eq_none_iff.mp hr.symm, hfind] at htrace
    exact Trace.nothing htrace
  | some start =>
    obtain ⟨q, hq, rfl⟩ := Option.map_eq_some_iff.mp hr.symm
    have hfills := choose_fills h.orderly hq
    have hlim := hfills.range.limit
    have hsearched := choose_searched h.orderly hq hfind
    rcases hsys : mremap_fixed w.host a old old_size new_size q.start_addr with
      ⟨host, errno' | x⟩ <;> simp only [hsys] at hcall <;>
      obtain ⟨vm', hins, hcall⟩ := Option.bind_eq_some_iff.mp hcall
    · obtain ⟨rfl, -⟩ := Prod.mk.inj (Option.some.inj hcall)
      rw [add64_eq (by omega) (by omega), ← hfills.end_addr] at hins
      rw [hsearched.marked.undo_fills h.orderly hsearched.free hins,
        hfills.start_free h.orderly hpos]
      simp
    · cases (Prod.mk.inj (Option.some.inj hcall)).2

theorem mremap_grow_failed (hcall : mremap_grow w old old_size new_size a =
    some (w', .error errno)) : w'.vm = w.vm := by
  unfold mremap_grow at hcall
  obtain ⟨free, -, hcall⟩ := Option.bind_eq_some_iff.mp hcall
  split_ifs at hcall
  · rcases hsys : mremap_in_place w.host a old old_size new_size with ⟨host, errno' | x⟩ <;>
      simp only [hsys] at hcall
    · obtain ⟨rfl, -⟩ := Prod.mk.inj (Option.some.inj hcall)
      rfl
    · obtain ⟨vm, -, hcall⟩ := Option.bind_eq_some_iff.mp hcall
      cases (Prod.mk.inj (Option.some.inj hcall)).2
  · obtain ⟨rfl, -⟩ := Prod.mk.inj (Option.some.inj hcall)
    rfl

/-- The other branches ask the host first. -/
theorem mremap_failed (h : Paged w.vm) (hcall : internal_mremap L w old old_size new_size maymove
    fixed new a a' = some (w', .error errno)) : KeepsTypes w.vm.vma_list w'.vm.vma_list := by
  unfold internal_mremap at hcall
  split_ifs at hcall with hal hvalid hfixed hle hmove
  · obtain ⟨rfl, -⟩ := Prod.mk.inj (Option.some.inj hcall)
    exact .refl _
  · unfold mremap_to at hcall
    rcases hsys : mremap_fixed w.host a old old_size new_size new with ⟨host, errno' | x⟩ <;>
      simp only [hsys] at hcall
    · obtain ⟨rfl, -⟩ := Prod.mk.inj (Option.some.inj hcall)
      exact .refl _
    · obtain ⟨vm, -, hcall⟩ := Option.bind_eq_some_iff.mp hcall
      obtain ⟨vm', -, hcall⟩ := Option.bind_eq_some_iff.mp hcall
      cases (Prod.mk.inj (Option.some.inj hcall)).2
  · unfold mremap_shrink at hcall
    rcases hsys : mremap_in_place w.host a old old_size new_size with ⟨host, errno' | x⟩ <;>
      simp only [hsys] at hcall
    · obtain ⟨rfl, -⟩ := Prod.mk.inj (Option.some.inj hcall)
      exact .refl _
    · split_ifs at hcall
      · obtain ⟨vm, -, hcall⟩ := Option.bind_eq_some_iff.mp hcall
        cases (Prod.mk.inj (Option.some.inj hcall)).2
      · cases (Prod.mk.inj (Option.some.inj hcall)).2
  · obtain ⟨⟨v, res⟩, hgrow, hcall⟩ := Option.bind_eq_some_iff.mp hcall
    cases res with
    | ok x => cases (Prod.mk.inj (Option.some.inj hcall)).2
    | error errno' =>
      have hvm := mremap_grow_failed hgrow
      rw [← hvm]
      refine mremap_move_failed (hvm ▸ h) ?_ hcall
      omega
  · obtain ⟨⟨v, res⟩, hgrow, hcall⟩ := Option.bind_eq_some_iff.mp hcall
    cases res with
    | ok x => cases (Prod.mk.inj (Option.some.inj hcall)).2
    | error errno' =>
      obtain ⟨rfl, -⟩ := Prod.mk.inj (Option.some.inj hcall)
      rw [mremap_grow_failed hgrow]
      exact .refl _
  · obtain ⟨rfl, -⟩ := Prod.mk.inj (Option.some.inj hcall)
    exact .refl _

theorem shmat_failed {seg : Nat} {stat : Except Nat Nat} (h : Paged w.vm)
    (hcall : internal_shmat L w seg addr stat a a' = some (w', .error errno)) :
    KeepsTypes w.vm.vma_list w'.vm.vma_list ↔ shmat_undone w.vm addr stat := by
  unfold internal_shmat at hcall
  unfold shmat_undone
  cases stat with
  | error errno' =>
    obtain ⟨rfl, -⟩ := Prod.mk.inj (Option.some.inj hcall)
    exact iff_of_true (.refl _) fun segsz hstat => by cases hstat
  | ok segsz =>
    simp only [Except.ok.injEq, forall_eq']
    obtain ⟨⟨vm, res⟩, hplace, hcall⟩ := Option.bind_eq_some_iff.mp hcall
    unfold shmat_place at hplace
    by_cases haddr : addr = 0
    · rw [if_pos haddr] at hplace ⊢
      have hr := (choose_moved hplace).1
      have hundone := @choose_undone_iff L w.vm (PAGE_ALIGN_UP segsz) h.orderly
      rw [PAGE_ALIGN_UP_up] at hundone
      rw [hundone]
      cases res with
      | none =>
        obtain ⟨rfl, -⟩ := Prod.mk.inj (Option.some.inj hcall)
        have htrace := choose_trace L w.vm (PAGE_ALIGN_UP segsz)
        rw [Option.map_eq_none_iff.mp hr.symm, hplace] at htrace
        refine iff_of_true (Trace.nothing htrace) ?_
        rw [Option.map_eq_none_iff.mp hr.symm]
        simp
      | some start =>
        obtain ⟨q, hq, rfl⟩ := Option.map_eq_some_iff.mp hr.symm
        have hfills := choose_fills h.orderly hq
        rw [PAGE_ALIGN_UP_up] at hfills
        have hlim := hfills.range.limit
        have hsearched := choose_searched h.orderly hq hplace
        rcases hsys : shmat_syscall w.host a seg segsz q.start_addr with ⟨host, errno' | x⟩ <;>
          simp only [hsys] at hcall <;>
          obtain ⟨vm', hins, hcall⟩ := Option.bind_eq_some_iff.mp hcall
        · obtain ⟨rfl, -⟩ := Prod.mk.inj (Option.some.inj hcall)
          rw [add64_eq (by omega) (by omega), ← hfills.end_addr] at hins
          rw [hsearched.marked.undo_fills h.orderly hsearched.free hins, hq]
          simp
        · cases (Prod.mk.inj (Option.some.inj hcall)).2
    · rw [if_neg haddr] at hplace ⊢
      obtain ⟨v, hmark, hres⟩ := Option.bind_eq_some_iff.mp hplace
      obtain ⟨rfl, rfl⟩ := Prod.mk.inj (Option.some.inj hres)
      obtain ⟨u, hu, hlist, -⟩ := insert_spec hmark
      rcases hsys : shmat_syscall w.host a seg segsz (PAGE_ALIGN_DOWN addr) with
        ⟨host, errno' | x⟩ <;> simp only [hsys] at hcall <;>
        obtain ⟨vm', hins, hcall⟩ := Option.bind_eq_some_iff.mp hcall
      · obtain ⟨rfl, -⟩ := Prod.mk.inj (Option.some.inj hcall)
        obtain ⟨u', hu', hlist', -⟩ := insert_spec hins
        rw [hlist] at hu'
        rw [hlist']
        exact undo_keeps_iff h.orderly.ordered hu hu'
      · cases (Prod.mk.inj (Option.some.inj hcall)).2

end failed

/-- Whatever has happened before, and whatever the host answers: a call that fails leaves the types
    as they were, but for a `shmat` over mapped memory and an area of length 0 that was found in an
    empty descriptor. -/
theorem failed_calls_keep_types (T : target) (p : pool_state)
    (h : (entry_points T.layout).Reach (fun _ _ => True) p) :
    (∀ addr length prot_exec fixed a w' errno,
      internal_mmap T.layout p.world addr length prot_exec fixed a = some (w', .error errno) →
        (KeepsTypes p.world.vm.vma_list w'.vm.vma_list ↔
          mmap_undone p.world.vm addr length fixed)) ∧
    (∀ old old_size new_size maymove fixed new a a' w' errno,
      internal_mremap T.layout p.world old old_size new_size maymove fixed new a a' =
        some (w', .error errno) → KeepsTypes p.world.vm.vma_list w'.vm.vma_list) ∧
    ∀ seg shmaddr stat a a' w' errno,
      internal_shmat T.layout p.world seg shmaddr stat a a' = some (w', .error errno) →
        (KeepsTypes p.world.vm.vma_list w'.vm.vma_list ↔
          shmat_undone p.world.vm shmaddr stat) := by
  have hpaged := reach_paged T h
  refine ⟨?_, ?_, ?_⟩
  · intro addr length prot_exec fixed a w' errno hcall
    exact mmap_failed (target_cursor_ok T) hpaged hcall
  · intro old old_size new_size maymove fixed new a a' w' errno hcall
    exact mremap_failed hpaged hcall
  · intro seg shmaddr stat a a' w' errno hcall
    exact shmat_failed hpaged hcall

/-- A first `mmap` that the host refuses. -/
theorem failed_mmap_keeps_types : ∃ w',
    internal_mmap arm64_layout (entry_points arm64_layout).init.world 0 0x1000 false false
      (.refuses ENOMEM) = some (w', .error ENOMEM) ∧
    KeepsTypes (entry_points arm64_layout).init.world.vm.vma_list w'.vm.vma_list := by
  refine ⟨_, rfl, ((failed_calls_keep_types .arm64 _ .init).1 0 0x1000 false false
    (.refuses ENOMEM) _ ENOMEM rfl).mpr ?_⟩
  intro _ hzero
  exact absurd hzero (by decide)

/-- A page that the guest maps at a fixed address. -/
def map_fixed_page : event :=
  .enter (mmap_guest 0x500000 0x1000 false true .accepts) agrees .accepts

/-- A `shmat` over it that the host refuses. -/
theorem failed_shmat_unmaps : ∃ p w',
    (entry_points arm64_layout).Reach (fun _ _ => True) p ∧
    internal_shmat arm64_layout p.world 7 0x500000 (.ok 0x1000) (.refuses EINVAL) .accepts =
      some (w', .error EINVAL) ∧
    typeAt p.world.vm.vma_list 0x500000 = some .VMA_MAP ∧
    typeAt w'.vm.vma_list 0x500000 = some .VMA_UNMAP ∧
    ¬ KeepsTypes p.world.vm.vma_list w'.vm.vma_list := by
  obtain ⟨p, w', hreach, hcall, hbefore, hafter⟩ : ∃ p w',
      (entry_points arm64_layout).Reach (fun _ _ => True) p ∧
      internal_shmat arm64_layout p.world 7 0x500000 (.ok 0x1000) (.refuses EINVAL) .accepts =
        some (w', .error EINVAL) ∧
      typeAt p.world.vm.vma_list 0x500000 = some .VMA_MAP ∧
      typeAt w'.vm.vma_list 0x500000 = some .VMA_UNMAP :=
    ⟨_, _, .step (l := map_fixed_page) .init trivial rfl, rfl, by decide, by decide⟩
  refine ⟨p, w', hreach, hcall, hbefore, hafter, ?_⟩
  intro h
  have := h _ _ hbefore
  rw [hafter] at this
  cases this

end Umeq.Memory
