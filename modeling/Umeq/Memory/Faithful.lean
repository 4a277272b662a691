import Umeq.Memory.Shadow

/-! # The shadow map over whole runs

    One lemma for each call: it leads from `Shadows` for the host's pages before
    to `Shadows` for the host's pages after. Three calls need a condition for it,
    and `keeps_faith` collects these conditions:

    * `mremap` must not be carried out with an old size of 0, and a move must
      have an old size of whole pages, because the end of the range it gives back
      is not rounded;
    * `shmat` at a given address marks the range before it asks the host and
      unmarks it on a refusal, so the range must have been free;
    * `shmdt` gives back the range recorded by `shmat`, so what the host detaches
      must be what is left mapped of it.
-/

namespace Umeq.Memory

variable {L : layout} {w w' : world} {r : Except Nat Nat}

/-- The list stands for the pages the host has mapped. -/
def InStep (L : layout) (w : world) : Prop := Shadows L w.vm w.host.mapped

/-! ## `mmap` and `munmap` -/

/-- An area the host has mapped where the search put it. -/
theorem Took.commit {vm : mmap_state} {h : host} {start n : Nat} {b : backing}
    (ht : Took L h.mapped vm start n) :
    Shadows L vm (h.fill start (start + n) (some b)).mapped := by
  rw [mapped_fill]
  simpa using ht.marked

theorem internal_mmap_in_step {addr length : Nat} {prot_exec map_fixed : Bool} {a : answer}
    (hL : L.cursor_ok) (h : InStep L w) (hpos : 0 < length) (hlim : length ≤ TASK_SIZE)
    (hcall : internal_mmap L w addr length prot_exec map_fixed a = some (w', r)) :
    InStep L w' := by
  unfold internal_mmap at hcall
  split_ifs at hcall with hfixed
  · -- `MAP_FIXED`: the host first
    rcases hsys : mmap_syscall w.host a addr length with ⟨host, res⟩
    simp only [hsys] at hcall
    rcases range_syscall_cases hsys with ⟨rfl, ⟨errno, rfl⟩, -⟩ | ⟨hargs, rfl, rfl⟩
    · obtain ⟨rfl, rfl⟩ := Prod.mk.inj (Option.some.inj hcall)
      exact h
    · obtain ⟨vm, hins, hcall⟩ := Option.bind_eq_some_iff.mp hcall
      obtain ⟨rfl, rfl⟩ := Prod.mk.inj (Option.some.inj hcall)
      obtain ⟨hal, _, hend⟩ := hargs
      obtain ⟨hup, hge, -, -⟩ := PAGE_ALIGN_UP_spec hlim
      rw [PAGE_ALIGN_UP_add hal (by omega) hlim] at hins
      have := h.insert hal (Aligned.add hal hup) (by omega) hins
      unfold InStep
      rw [mapped_fill]
      simpa using this
  · -- the search first
    obtain ⟨⟨vm, res_vma⟩, hfind, hcall⟩ := Option.bind_eq_some_iff.mp hcall
    have hfound : Found L w.host.mapped vm (PAGE_ALIGN_UP length) res_vma := by
      unfold mmap_search at hfind
      split_ifs at hfind
      · exact find_vma_with_kernel_choose_spec hL h hpos hlim hfind
      · exact find_vma_with_hint_spec h hpos hlim hfind
    cases res_vma with
    | none =>
      obtain ⟨rfl, rfl⟩ := Prod.mk.inj (Option.some.inj hcall)
      exact hfound
    | some start =>
      have htook : Took L w.host.mapped vm start (PAGE_ALIGN_UP length) := hfound
      have htl := htook.limit
      rcases hsys : mmap_syscall w.host a start length with ⟨host, res⟩
      simp only [hsys] at hcall
      rcases range_syscall_cases hsys with ⟨rfl, ⟨errno, rfl⟩, -⟩ | ⟨hargs, rfl, rfl⟩
      · obtain ⟨vm', hins, hcall⟩ := Option.bind_eq_some_iff.mp hcall
        obtain ⟨rfl, rfl⟩ := Prod.mk.inj (Option.some.inj hcall)
        rw [PAGE_ALIGN_UP_add htook.start_aligned (by omega) hlim] at hins
        exact htook.undo hins
      · obtain ⟨rfl, rfl⟩ := Prod.mk.inj (Option.some.inj hcall)
        exact htook.commit.of_eq rfl htook.marked.cursor rfl

theorem internal_munmap_in_step {addr length : Nat} {a : answer} (h : InStep L w)
    (hcall : internal_munmap w addr length a = some (w', r)) : InStep L w' := by
  unfold internal_munmap at hcall
  rcases hsys : munmap w.host a addr length with ⟨host, res⟩
  simp only [hsys] at hcall
  rcases range_syscall_cases hsys with ⟨rfl, ⟨errno, rfl⟩, -⟩ | ⟨hargs, rfl, rfl⟩
  · obtain ⟨rfl, rfl⟩ := Prod.mk.inj (Option.some.inj hcall)
    exact h
  · obtain ⟨vm, hins, hcall⟩ := Option.bind_eq_some_iff.mp hcall
    obtain ⟨rfl, rfl⟩ := Prod.mk.inj (Option.some.inj hcall)
    obtain ⟨hal, hpos, hend⟩ := hargs
    obtain ⟨hup, hge, -, -⟩ := PAGE_ALIGN_UP_spec (show length ≤ TASK_SIZE by omega)
    rw [PAGE_ALIGN_UP_add hal (by omega) (by omega)] at hins
    have := h.insert hal (Aligned.add hal hup) (by omega) hins
    unfold InStep
    rw [mapped_fill]
    simpa using this

/-! ## `mremap` -/

section mremap

variable {old old_size new_size new : Nat} {a : answer}

theorem mremap_to_in_step (h : InStep L w) (hpos : a = .accepts → 0 < old_size)
    (hcall : mremap_to w old old_size new_size new a = some (w', r)) : InStep L w' := by
  unfold mremap_to at hcall
  rcases hsys : mremap_fixed w.host a old old_size new_size new with ⟨host, res⟩
  simp only [hsys] at hcall
  rcases mremap_fixed_cases hsys with ⟨rfl, errno, rfl⟩ | ⟨hargs, hnew, rfl, -, ha, b, -, rfl⟩
  · obtain ⟨rfl, rfl⟩ := Prod.mk.inj (Option.some.inj hcall)
    exact h
  · obtain ⟨vm, hins, hcall⟩ := Option.bind_eq_some_iff.mp hcall
    obtain ⟨vm', hins', hcall⟩ := Option.bind_eq_some_iff.mp hcall
    obtain ⟨rfl, rfl⟩ := Prod.mk.inj (Option.some.inj hcall)
    obtain ⟨hal, hend, -, hlim⟩ := hargs
    obtain ⟨hal', hpos', hend'⟩ := hnew
    have hpos := hpos ha
    obtain ⟨hup, hge, -, -⟩ := PAGE_ALIGN_UP_spec (show old_size ≤ TASK_SIZE by omega)
    obtain ⟨hup', hge', -, -⟩ := PAGE_ALIGN_UP_spec hlim
    rw [PAGE_ALIGN_UP_add hal (by omega) (by omega)] at hins
    rw [PAGE_ALIGN_UP_add hal' (by omega) (by omega)] at hins'
    have h1 := h.insert hal (Aligned.add hal hup) (by omega) hins
    have h2 := h1.insert hal' (Aligned.add hal' hup') (by omega) hins'
    unfold InStep
    rw [mapped_fill, mapped_fill]
    simpa using h2

theorem mremap_shrink_in_step (h : InStep L w)
    (hle : PAGE_ALIGN_UP new_size ≤ PAGE_ALIGN_UP old_size)
    (hcall : mremap_shrink w old old_size new_size a = some (w', r)) : InStep L w' := by
  unfold mremap_shrink at hcall
  rcases hsys : mremap_in_place w.host a old old_size new_size with ⟨host, res⟩
  simp only [hsys] at hcall
  rcases mremap_in_place_cases hsys with ⟨rfl, errno, rfl⟩ | ⟨hargs, rfl, b, rfl⟩
  · obtain ⟨rfl, rfl⟩ := Prod.mk.inj (Option.some.inj hcall)
    exact h
  · obtain ⟨hal, hend, -, hlim⟩ := hargs
    obtain ⟨hup, -, -, hu⟩ := PAGE_ALIGN_UP_spec (show old_size ≤ TASK_SIZE by omega)
    obtain ⟨hup', -, -, hu'⟩ := PAGE_ALIGN_UP_spec hlim
    simp only [if_pos (Nat.add_le_add_left hle old)] at hcall
    split_ifs at hcall with hne
    · obtain ⟨vm, hins, hcall⟩ := Option.bind_eq_some_iff.mp hcall
      obtain ⟨rfl, rfl⟩ := Prod.mk.inj (Option.some.inj hcall)
      rw [add64_eq (by omega) hu, add64_eq (by omega) hu'] at hins
      have := h.insert (Aligned.add hal hup') (Aligned.add hal hup) (by omega) hins
      unfold InStep
      rw [mapped_fill]
      simpa using this
    · -- the same number of pages: the host has nothing to give back
      obtain ⟨rfl, rfl⟩ := Prod.mk.inj (Option.some.inj hcall)
      unfold InStep
      rw [mapped_fill]
      refine h.congr fun x _ => ?_
      rw [setRange_page (Aligned.add hal hup') (Aligned.add hal hup), if_neg (by omega)]

/-- Growing in place: on an error nothing has changed, and when the host had
    agreed, the area was not free or the arguments were wrong. -/
theorem mremap_grow_in_step (h : InStep L w)
    (hargs : mremap_args old old_size new_size)
    (hlt : PAGE_ALIGN_UP old_size < PAGE_ALIGN_UP new_size)
    (hcall : mremap_grow w old old_size new_size a = some (w', r)) : InStep L w' ∧
      ((∃ errno, r = .error errno) → w' = w) := by
  unfold mremap_grow at hcall
  obtain ⟨free, -, hcall⟩ := Option.bind_eq_some_iff.mp hcall
  split_ifs at hcall
  · rcases hsys : mremap_in_place w.host a old old_size new_size with ⟨host, res⟩
    simp only [hsys] at hcall
    rcases mremap_in_place_cases hsys with ⟨rfl, errno, rfl⟩ | ⟨-, rfl, b, rfl⟩
    · obtain ⟨rfl, rfl⟩ := Prod.mk.inj (Option.some.inj hcall)
      exact ⟨h, fun _ => rfl⟩
    · obtain ⟨vm, hins, hcall⟩ := Option.bind_eq_some_iff.mp hcall
      obtain ⟨rfl, rfl⟩ := Prod.mk.inj (Option.some.inj hcall)
      obtain ⟨hal, hend, -, hlim⟩ := hargs
      obtain ⟨hup, -, -, hu⟩ := PAGE_ALIGN_UP_spec (show old_size ≤ TASK_SIZE by omega)
      obtain ⟨hup', -, -, hu'⟩ := PAGE_ALIGN_UP_spec hlim
      rw [add64_eq (by omega) hu, add64_eq (by omega) hu'] at hins
      refine ⟨?_, by rintro ⟨errno, herr⟩; cases herr⟩
      have := h.insert (Aligned.add hal hup) (Aligned.add hal hup') (by omega) hins
      unfold InStep
      rw [if_neg (by omega), mapped_fill]
      simpa using this
  · obtain ⟨rfl, rfl⟩ := Prod.mk.inj (Option.some.inj hcall)
    exact ⟨h, fun _ => rfl⟩

theorem mremap_move_in_step (hL : L.cursor_ok) (h : InStep L w)
    (hargs : mremap_args old old_size new_size)
    (hold : ∀ b, a = .accepts → w.host.page (old / PAGE_SIZE) = some b →
      0 < old_size ∧ Aligned old_size)
    (hcall : mremap_move L w old old_size new_size a = some (w', r)) : InStep L w' := by
  obtain ⟨hal, hend, hpos, hlim⟩ := hargs
  unfold mremap_move at hcall
  obtain ⟨⟨vm, res_vma⟩, hfind, hcall⟩ := Option.bind_eq_some_iff.mp hcall
  have hfound := find_vma_with_kernel_choose_spec hL h hpos hlim hfind
  cases res_vma with
  | none =>
    obtain ⟨rfl, rfl⟩ := Prod.mk.inj (Option.some.inj hcall)
    exact hfound
  | some start =>
    have htook : Took L w.host.mapped vm start (PAGE_ALIGN_UP new_size) := hfound
    have htl := htook.limit
    rcases hsys : mremap_fixed w.host a old old_size new_size start with ⟨host, res⟩
    simp only [hsys] at hcall
    rcases mremap_fixed_cases hsys with ⟨rfl, errno, rfl⟩ | ⟨-, -, rfl, hap, ha, b, hb, rfl⟩
    · obtain ⟨vm', hins, hcall⟩ := Option.bind_eq_some_iff.mp hcall
      obtain ⟨rfl, rfl⟩ := Prod.mk.inj (Option.some.inj hcall)
      rw [add64_eq (by omega) (by omega)] at hins
      exact htook.undo hins
    · obtain ⟨vm', hins, hcall⟩ := Option.bind_eq_some_iff.mp hcall
      obtain ⟨rfl, rfl⟩ := Prod.mk.inj (Option.some.inj hcall)
      obtain ⟨hopos, hoal⟩ := hold b ha hb
      rw [add64_eq (by omega) (by omega)] at hins
      have hmoved := htook.marked.insert hal (Aligned.add hal hoal) (by omega) hins
      unfold InStep
      rw [mapped_fill, mapped_fill, PAGE_ALIGN_UP_of_aligned (by omega) hoal] at *
      refine hmoved.congr fun x hx => ?_
      -- the two ranges are apart, so their order does not matter
      have hnew := htook.start_aligned.add htook.size_aligned
      simp only [setRange_page hal (Aligned.add hal hoal), setRange_page htook.start_aligned hnew]
      split_ifs <;> first | omega | simp

/-- When the host carries out a move, it would have carried out the growth in
    place it had agreed to. -/
theorem mremap_grow_refused {b : backing} {errno : Nat} (h : InStep L w)
    (hargs : mremap_args old old_size new_size) (hpos : 0 < old_size)
    (hb : w.host.page (old / PAGE_SIZE) = some b)
    (hfree : is_area_unmap w.vm (add64 old (PAGE_ALIGN_UP old_size))
      (add64 old (PAGE_ALIGN_UP new_size)) = some true) :
    mremap_grow w old old_size new_size .accepts ≠ some (w', .error errno) := by
  intro hcall
  obtain ⟨hal, hend, hnpos, hlim⟩ := hargs
  obtain ⟨hup', hge', -, hu'⟩ := PAGE_ALIGN_UP_spec hlim
  -- the free area ends inside the managed space, so the host has room for it
  have hroom : old + new_size ≤ TASK_SIZE := by
    obtain ⟨i, hi, hfree⟩ := Option.bind_eq_some_iff.mp hfree
    obtain ⟨d, hd, hfree⟩ := Option.bind_eq_some_iff.mp hfree
    have hle : PAGE_ALIGN_UP (add64 old (PAGE_ALIGN_UP new_size)) ≤ d.end_addr := by
      simpa using (show _ ∧ _ by simpa using hfree).2
    have := (h.limit d (List.mem_of_getElem? hd)).2
    rw [PAGE_ALIGN_UP_add hal (by omega) hu', PAGE_ALIGN_UP_of_aligned hu' hup'] at hle
    omega
  unfold mremap_grow at hcall
  simp only [hfree, Option.bind_eq_bind, Option.bind_some, if_true] at hcall
  rcases hsys : mremap_in_place w.host .accepts old old_size new_size with ⟨host, res⟩
  simp only [hsys] at hcall
  cases res with
  | error e => exact mremap_in_place_accepts hb ⟨hal, hend, hnpos, hlim⟩ hpos hroom hsys
  | ok x =>
    obtain ⟨vm, -, hcall⟩ := Option.bind_eq_some_iff.mp hcall
    cases Option.some.inj hcall

end mremap

/-! ## `shmat` and `shmdt` -/

theorem shmat_place_start {vm vm' : mmap_state} {shmaddr n start : Nat}
    (hplace : shmat_place L vm shmaddr n = some (vm', some start)) (hne : shmaddr ≠ 0) :
    start = PAGE_ALIGN_DOWN shmaddr := by
  unfold shmat_place at hplace
  rw [if_neg hne] at hplace
  obtain ⟨v, -, hres⟩ := Option.bind_eq_some_iff.mp hplace
  exact (Option.some.inj (Prod.mk.inj (Option.some.inj hres)).2).symm

theorem shm_insert_in_step {s e : Nat} {a : answer} (hL : L.cursor_ok) (h : InStep L w)
    (hs : Aligned s) (he : Aligned e) (hse : s < e) (hcall : shm_insert L w s e a = some w') :
    InStep L w' := by
  obtain ⟨v, hget, hcall⟩ := Option.bind_eq_some_iff.mp hcall
  obtain rfl := Option.some.inj hcall
  have hv : InStep L v := by
    unfold get_shmat_free_desc at hget
    split_ifs at hget
    · obtain ⟨⟨u, res⟩, hmap, hget⟩ := Option.bind_eq_some_iff.mp hget
      have hu := internal_mmap_in_step hL h (by decide) (by decide) hmap
      cases res with
      | error errno => cases hget
      | ok addr =>
        obtain rfl := Option.some.inj hget
        exact Shadows.of_eq hu rfl hu.cursor rfl
    · obtain rfl := Option.some.inj hget
      exact Shadows.of_eq h rfl h.cursor rfl
  refine { hv with attached := ?_ }
  intro d hd
  rcases List.mem_cons.mp hd with rfl | hd
  · exact ⟨hs, he, hse⟩
  · exact hv.attached d hd

/-- The area `shmat` marks. It can be unmarked again when it was free. -/
theorem shmat_place_spec {vm : mmap_state} {shmaddr segsz start : Nat} (hL : L.cursor_ok)
    (h : InStep L w) (hpos : 0 < segsz) (hlim : segsz ≤ TASK_SIZE)
    (hplace : shmat_place L w.vm shmaddr (PAGE_ALIGN_UP segsz) = some (vm, some start)) :
    Aligned start ∧ start ≤ TASK_SIZE ∧
      Shadows L vm (setRange w.host.mapped start (start + PAGE_ALIGN_UP segsz) True) ∧
      ((shmaddr ≠ 0 → ∀ x, L.managed x → PAGE_ALIGN_DOWN shmaddr ≤ x →
          x < PAGE_ALIGN_DOWN shmaddr + PAGE_ALIGN_UP segsz → ¬ w.host.mapped (x / PAGE_SIZE)) →
        Took L w.host.mapped vm start (PAGE_ALIGN_UP segsz)) := by
  obtain ⟨hup, hge, -, hu⟩ := PAGE_ALIGN_UP_spec hlim
  unfold shmat_place at hplace
  split_ifs at hplace with hzero
  · have hfound := find_vma_with_kernel_choose_spec hL h (by omega) hu hplace
    rw [PAGE_ALIGN_UP_of_aligned hu hup] at hfound
    have htook : Took L w.host.mapped vm start (PAGE_ALIGN_UP segsz) := hfound
    have := htook.limit
    exact ⟨htook.start_aligned, by omega, htook.marked, fun _ => htook⟩
  · obtain ⟨v, hins, hres⟩ := Option.bind_eq_some_iff.mp hplace
    obtain ⟨rfl, hstart⟩ := Prod.mk.inj (Option.some.inj hres)
    obtain rfl := Option.some.inj hstart
    obtain ⟨u, hu', -⟩ := insert_spec hins
    obtain ⟨⟨ds, hds, hos⟩, de, hde, hoe⟩ := insert_area_owned hu'
    have hls := (h.limit ds hds).2
    have hle := (h.limit de hde).2
    simp only [owns, decide_eq_true_eq] at hos hoe
    have hdown := aligned_down shmaddr
    rw [add64_eq (by omega) hu] at hins hoe
    have hmark := h.insert hdown (hdown.add hup) (by omega) hins
    simp only at hmark
    refine ⟨hdown, by omega, by simpa using hmark, fun hfree => ?_⟩
    exact ⟨hdown, hup, by omega, by omega, by simpa using hmark, hfree hzero⟩

/-- No page of the range a `shmat` at a given address covers is mapped. -/
def shmat_range_free (L : layout) (w : world) (shmaddr segsz : Nat) : Prop :=
  ∀ x, L.managed x → PAGE_ALIGN_DOWN shmaddr ≤ x →
    x < PAGE_ALIGN_DOWN shmaddr + PAGE_ALIGN_UP segsz → ¬ w.host.mapped (x / PAGE_SIZE)

theorem internal_shmat_in_step {seg shmaddr segsz : Nat} {a a' : answer} (hL : L.cursor_ok)
    (h : InStep L w) (hpos : 0 < segsz) (hlim : segsz ≤ TASK_SIZE)
    (hargs : shmaddr ≠ 0 → range_args (PAGE_ALIGN_DOWN shmaddr) segsz)
    (hfree : a ≠ .accepts → shmaddr ≠ 0 → shmat_range_free L w shmaddr segsz)
    (hcall : internal_shmat L w seg shmaddr (.ok segsz) a a' = some (w', r)) : InStep L w' := by
  obtain ⟨hup, hge, -, hu⟩ := PAGE_ALIGN_UP_spec hlim
  obtain ⟨⟨vm, res⟩, hplace, hcall⟩ := Option.bind_eq_some_iff.mp hcall
  cases res with
  | none =>
    obtain ⟨rfl, rfl⟩ := Prod.mk.inj (Option.some.inj hcall)
    unfold shmat_place at hplace
    split_ifs at hplace
    · exact find_vma_with_kernel_choose_spec hL h (by omega) hu hplace
    · obtain ⟨v, -, hres⟩ := Option.bind_eq_some_iff.mp hplace
      cases Option.some.inj hres
  | some start =>
    obtain ⟨hal, hls, hmark, htook⟩ := shmat_place_spec hL h hpos hlim hplace
    rcases hsys : shmat_syscall w.host a seg segsz start with ⟨host, res⟩
    simp only [hsys] at hcall
    rcases range_syscall_cases hsys with ⟨rfl, ⟨errno, rfl⟩, hwhy⟩ | ⟨-, rfl, rfl⟩
    · obtain ⟨vm', hins, hcall⟩ := Option.bind_eq_some_iff.mp hcall
      obtain ⟨rfl, rfl⟩ := Prod.mk.inj (Option.some.inj hcall)
      rw [add64_eq hls hu] at hins
      refine (htook fun hne => hfree (hwhy ?_) hne).undo hins
      rw [shmat_place_start hplace hne]
      exact hargs hne
    · obtain ⟨v, hins, hcall⟩ := Option.bind_eq_some_iff.mp hcall
      obtain ⟨rfl, rfl⟩ := Prod.mk.inj (Option.some.inj hcall)
      rw [add64_eq hls hu] at hins
      refine shm_insert_in_step hL ?_ hal (hal.add hup) (by omega) hins
      unfold InStep
      rw [mapped_fill]
      simpa using hmark

/-- What the host detaches at `shmaddr` is what is left mapped of the range that
    the last `shmat` there has recorded. -/
def shmdt_range_whole (L : layout) (w : world) (shmaddr seg : Nat) : Prop :=
  ∃ d, shm_find w.vm shmaddr = some d ∧ ∀ x, L.managed x →
    (w.host.page (x / PAGE_SIZE) = some (.shm shmaddr seg) ↔
      d.start_addr ≤ x ∧ x < d.end_addr ∧ w.host.mapped (x / PAGE_SIZE))

theorem internal_shmdt_in_step {shmaddr : Nat} {a : Except Nat Nat} (h : InStep L w)
    (hrange : ∀ seg, a = .ok seg → shmdt_range_whole L w shmaddr seg)
    (hcall : internal_shmdt w shmaddr a = some (w', r)) : InStep L w' := by
  unfold internal_shmdt shmdt_syscall at hcall
  cases a with
  | error errno =>
    obtain ⟨rfl, rfl⟩ := Prod.mk.inj (Option.some.inj hcall)
    exact h
  | ok seg =>
    obtain ⟨vm, hrem, hcall⟩ := Option.bind_eq_some_iff.mp hcall
    obtain ⟨rfl, rfl⟩ := Prod.mk.inj (Option.some.inj hcall)
    obtain ⟨d, hd, hpages⟩ := hrange seg rfl
    unfold shm_remove at hrem
    simp only [hd] at hrem
    obtain ⟨v, hins, hrem⟩ := Option.bind_eq_some_iff.mp hrem
    obtain rfl := Option.some.inj hrem
    obtain ⟨hs, he, hse⟩ := h.attached d (List.mem_of_find?_eq_some hd)
    have hv := h.insert hs he hse hins
    have hdet : Shadows L v (fun p =>
        ((if w.host.page p = some (.shm shmaddr seg) then none else w.host.page p) :
          Option backing).isSome = true) := by
      refine hv.congr fun x hx => ?_
      have hx := hpages x hx
      rw [setRange_page hs he]
      by_cases hin : d.start_addr ≤ x ∧ x < d.end_addr
      · by_cases hshm : w.host.page (x / PAGE_SIZE) = some (.shm shmaddr seg)
        · simp [hin, hshm]
        · have hun : ¬ w.host.mapped (x / PAGE_SIZE) := fun hm => hshm (hx.mpr ⟨hin.1, hin.2, hm⟩)
          unfold host.mapped at hun
          simp [hin, hshm, hun]
      · have hshm : w.host.page (x / PAGE_SIZE) ≠ some (.shm shmaddr seg) := fun hm =>
          hin ⟨(hx.mp hm).1, (hx.mp hm).2.1⟩
        rw [if_neg hin, if_neg hshm]
        rfl
    refine { hdet with attached := ?_ }
    intro c hc
    exact hv.attached c (List.mem_of_mem_erase hc)

/-! ## Runs -/

/-- Arguments the host accepts. It may refuse the call all the same. -/
def accepted_args (w : world) : call → Prop
  | .mmap addr_p length_p _ map_fixed _ =>
    0 < length_p ∧ length_p ≤ TASK_SIZE ∧ (addr_p ≠ 0 ∧ map_fixed → range_args addr_p length_p)
  | .munmap addr_p length_p _ => range_args addr_p length_p
  | .mremap old_addr_p old_size_p new_size_p maymove fixed new_addr_p _ _ =>
    mremap_args old_addr_p old_size_p new_size_p ∧
      (fixed → maymove ∧ range_args new_addr_p new_size_p)
  | .shmat _ shmaddr_p stat _ _ => ∀ segsz, stat = .ok segsz →
    0 < segsz ∧ segsz ≤ TASK_SIZE ∧
      (shmaddr_p ≠ 0 → range_args (PAGE_ALIGN_DOWN shmaddr_p) segsz)
  | .shmdt shmaddr_p a => ∀ seg, a = .ok seg → ∃ p, w.host.page p = some (.shm shmaddr_p seg)
  | .refill _ => True

/-- The conditions under which a call leaves the list in step with the host. -/
def keeps_faith (L : layout) (w : world) : call → Prop
  | .mremap old_addr_p old_size_p new_size_p maymove fixed _ a a' =>
    (fixed → a = .accepts → 0 < old_size_p) ∧
    (¬ fixed → maymove → PAGE_ALIGN_UP old_size_p < PAGE_ALIGN_UP new_size_p → a' = .accepts →
      0 < old_size_p ∧ (Aligned old_size_p ∨
        (a = .accepts ∧ is_area_unmap w.vm (add64 old_addr_p (PAGE_ALIGN_UP old_size_p))
          (add64 old_addr_p (PAGE_ALIGN_UP new_size_p)) = some true)))
  | .shmat _ shmaddr_p stat a _ => ∀ segsz, stat = .ok segsz → a ≠ .accepts → shmaddr_p ≠ 0 →
    shmat_range_free L w shmaddr_p segsz
  | .shmdt shmaddr_p a => ∀ seg, a = .ok seg → shmdt_range_whole L w shmaddr_p seg
  | _ => True

theorem internal_mremap_in_step {old old_size new_size new : Nat} {maymove fixed : Bool}
    {a a' : answer} (hL : L.cursor_ok) (h : InStep L w)
    (hargs : mremap_args old old_size new_size)
    (hfaith : keeps_faith L w (.mremap old old_size new_size maymove fixed new a a'))
    (hcall : internal_mremap L w old old_size new_size maymove fixed new a a' = some (w', r)) :
    InStep L w' := by
  obtain ⟨hfixed, hmove⟩ := hfaith
  unfold internal_mremap at hcall
  by_cases hal : PAGE_ALIGN_DOWN old ≠ old
  · rw [if_pos hal] at hcall
    obtain ⟨rfl, rfl⟩ := Prod.mk.inj (Option.some.inj hcall)
    exact h
  rw [if_neg hal] at hcall
  by_cases hvalid : is_area_valid w.vm old (add64 old old_size)
  · rw [if_neg (not_not.mpr hvalid)] at hcall
    by_cases hf : fixed = true
    · rw [if_pos hf] at hcall
      exact mremap_to_in_step h (hfixed hf) hcall
    rw [if_neg hf] at hcall
    by_cases hle : PAGE_ALIGN_UP new_size ≤ PAGE_ALIGN_UP old_size
    · rw [if_pos hle] at hcall
      exact mremap_shrink_in_step h hle hcall
    rw [if_neg hle] at hcall
    obtain ⟨⟨u, res⟩, hgrow, hrest⟩ := Option.bind_eq_some_iff.mp hcall
    obtain ⟨hu, hsame⟩ := mremap_grow_in_step h hargs (by omega) hgrow
    cases res with
    | ok x =>
      obtain ⟨rfl, rfl⟩ := Prod.mk.inj (Option.some.inj hrest)
      exact hu
    | error errno =>
      obtain rfl := hsame ⟨errno, rfl⟩
      simp only at hrest
      by_cases hmay : maymove = true
      · rw [if_pos hmay] at hrest
        refine mremap_move_in_step hL h hargs ?_ hrest
        intro b ha' hb
        obtain ⟨hpos, hold⟩ := hmove hf hmay (by omega) ha'
        refine ⟨hpos, hold.resolve_right ?_⟩
        rintro ⟨rfl, hfree⟩
        exact mremap_grow_refused h hargs hpos hb hfree hgrow
      · rw [if_neg hmay] at hrest
        obtain ⟨rfl, rfl⟩ := Prod.mk.inj (Option.some.inj hrest)
        exact h
  · rw [if_pos hvalid] at hcall
    obtain ⟨rfl, rfl⟩ := Prod.mk.inj (Option.some.inj hcall)
    exact h

/-- The step lemma. -/
theorem call_in_step {c : call} (hL : L.cursor_ok) (h : InStep L w) (hargs : accepted_args w c)
    (hfaith : keeps_faith L w c) (hexec : c.exec L w = some w') : InStep L w' := by
  cases c with
  | mmap addr_p length_p prot_exec map_fixed a =>
    obtain ⟨⟨v, r⟩, hcall, rfl⟩ := Option.map_eq_some_iff.mp hexec
    exact internal_mmap_in_step hL h hargs.1 hargs.2.1 hcall
  | munmap addr_p length_p a =>
    obtain ⟨⟨v, r⟩, hcall, rfl⟩ := Option.map_eq_some_iff.mp hexec
    exact internal_munmap_in_step h hcall
  | mremap old_addr_p old_size_p new_size_p maymove fixed new_addr_p a a' =>
    obtain ⟨⟨v, r⟩, hcall, rfl⟩ := Option.map_eq_some_iff.mp hexec
    exact internal_mremap_in_step hL h hargs.1 hfaith hcall
  | shmat seg shmaddr_p stat a a' =>
    obtain ⟨⟨v, r⟩, hcall, rfl⟩ := Option.map_eq_some_iff.mp hexec
    cases stat with
    | error errno =>
      obtain ⟨rfl, rfl⟩ := Prod.mk.inj (Option.some.inj hcall)
      exact h
    | ok segsz =>
      obtain ⟨hpos, hlim, hrange⟩ := hargs segsz rfl
      exact internal_shmat_in_step hL h hpos hlim hrange (hfaith segsz rfl) hcall
  | shmdt shmaddr_p a =>
    obtain ⟨⟨v, r⟩, hcall, rfl⟩ := Option.map_eq_some_iff.mp hexec
    exact internal_shmdt_in_step h hfaith hcall
  | refill a =>
    unfold call.exec allocate_more_desc_memory_if_needed at hexec
    simp only at hexec
    split_ifs at hexec
    · obtain rfl := Option.some.inj hexec
      exact h
    · obtain ⟨⟨v, r⟩, hcall, hexec⟩ := Option.bind_eq_some_iff.mp hexec
      have hv := internal_mmap_in_step hL h (by decide) (by decide) hcall
      cases r with
      | error errno => cases hexec
      | ok addr =>
        obtain rfl := Option.some.inj hexec
        exact Shadows.of_eq hv rfl hv.cursor rfl

/-- The two guests `mmap_common.c` is compiled for. -/
inductive target where
  | arm64
  | arm
  deriving DecidableEq, Repr

def target.layout : target → layout
  | .arm64 => arm64_layout
  | .arm => arm_layout

theorem target_cursor_ok (T : target) : T.layout.cursor_ok := by
  cases T
  · exact ⟨by decide, fun a ha => by cases ha; decide⟩
  · exact ⟨by decide, fun a ha => by cases ha⟩

theorem init_in_step (T : target) : InStep T.layout (address_space T.layout).init := by
  refine ⟨?_, ?_, ?_, (target_cursor_ok T).1, ?_, ?_, ?_⟩
  · cases T <;> simp [address_space, mmap_init, target.layout, arm64_layout, arm_layout,
      arm64_initial_list, Ordered, Intervals.apart_cons, Intervals.Apart.nil]
  · intro d hd
    refine ⟨?_, .inr ⟨d, hd, rfl⟩⟩
    revert d
    cases T <;> decide
  · unfold BoundsIn
    cases T <;> decide
  · exact fun x hx => ⟨_, hx⟩
  · intro x hx
    have hx : typeAt T.layout.vma_init x = some .VMA_UNMAP := hx
    simp [address_space, mmap_init, host.mapped, hx]
  · simp [address_space, mmap_init]

/-- Every managed address is marked `VMA_MAP` exactly when the host has its page
    mapped, and no call has made a bound that is not on a page boundary. -/
def Faithful (L : layout) (w : world) : Prop :=
  (∀ x, L.managed x →
    (typeAt w.vm.vma_list x = some .VMA_MAP ↔ w.host.mapped (x / PAGE_SIZE))) ∧
  BoundsIn Aligned L.end_ok w.vm.vma_list

/-- In every run of calls with arguments the host accepts, whatever it answers to
    them, the list stays faithful as long as each call meets its condition. -/
theorem address_space_faithful (T : target) (w : world)
    (h : (address_space T.layout).Reach
      (fun w c => accepted_args w c ∧ keeps_faith T.layout w c) w) : Faithful T.layout w := by
  have hstep : InStep T.layout w :=
    h.invariant (init_in_step T)
      fun s c s' hs hok hexec => call_in_step (target_cursor_ok T) hs hok.1 hok.2 hexec
  exact ⟨hstep.law, hstep.aligned⟩

/-- arm64, after a kernel-chosen `mmap` of one page. -/
def one_page : world where
  vm := { mmap_init arm64_layout with
    vma_list := [⟨.VMA_UNMAP, 0x400000, 0x4000000000⟩, ⟨.VMA_MAP, 0x4000000000, 0x4000001000⟩,
      ⟨.VMA_UNMAP, 0x4000001000, 0x7000000000⟩, ⟨.VMA_MAP, 0x7000000000, 0x7000001000⟩]
    free_vma := 98
    kernel_cursor := 0x4000010000 }
  host := (address_space arm64_layout).init.host.fill 0x4000000000 0x4000001000 (some .other)

/-- The page is then grown to three by a move, because the host does not grow it
    in place. The guest gives the old size. -/
def grow_by_move (old_size : Nat) : call :=
  .mremap 0x4000000000 old_size 0x3000 true false 0 (.refuses ENOMEM) .accepts

theorem one_page_exec : (address_space arm64_layout).exec (address_space arm64_layout).init
    (.mmap 0 0x1000 false false .accepts) = some one_page := rfl

/-- With an old size of whole pages the run stays faithful. -/
theorem grow_whole_page_faithful : ∃ w,
    (grow_by_move 0x1000).exec arm64_layout one_page = some w ∧
    typeAt w.vm.vma_list 0x4000000000 = some .VMA_UNMAP ∧
    typeAt w.vm.vma_list 0x4000010000 = some .VMA_MAP ∧ Faithful arm64_layout w := by
  refine ⟨_, rfl, by decide, by decide,
    address_space_faithful .arm64 _
      (.step (.step .init ?_ one_page_exec) (l := grow_by_move 0x1000) ?_ rfl)⟩
  · exact ⟨⟨by decide, by decide, by decide⟩, trivial⟩
  · refine ⟨⟨by decide, by decide⟩, by decide, ?_⟩
    exact fun _ _ _ _ => ⟨by decide, .inl (by decide)⟩

/-- With the old size the guest asked for, which the host rounds, the list keeps a
    part of the old page as mapped and has a bound inside it. -/
theorem grow_part_page_not_faithful : ∃ w,
    (address_space arm64_layout).Reach accepted_args w ∧ ¬ Faithful arm64_layout w := by
  refine ⟨_, .step (.step .init ?_ one_page_exec) (l := grow_by_move 0x800) ?_ rfl, ?_⟩
  · exact ⟨by decide, by decide, by decide⟩
  · exact ⟨by decide, by decide⟩
  · rintro ⟨hlaw, -⟩
    exact absurd (hlaw 0x4000000800 (by decide)) (by decide)

end Umeq.Memory
