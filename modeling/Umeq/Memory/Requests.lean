import Umeq.Memory.Mmap

/-! # The requests that the calls make to `insert_area`

    A call changes the list only through `insert_area`. `call.requests` lists the
    requests of one call in order, each with the state in which it is made, and
    `call_trace` says that the call is what these requests do: nothing else
    changes the list or takes a descriptor from the pool.
-/

namespace Umeq.Memory

/-- A call of `insert_area`, with the state in which it is made. -/
structure request where
  vm : mmap_state
  start_addr : Nat
  end_addr : Nat
  type : vma_type

def request.made (q : request) : Option mmap_state := q.vm.insert q.start_addr q.end_addr q.type

/-! ## Requests of the searches -/

def find_vma_request (s : mmap_state) (length : Nat) : Option request :=
  let length := PAGE_ALIGN_UP length
  (s.vma_list.find? (fun desc => decide (desc.type = .VMA_UNMAP ∧
      sub64 desc.end_addr desc.start_addr ≥ length))).map
    fun desc => ⟨s, desc.start_addr, add64 desc.start_addr length, .VMA_MAP⟩

def choose_request (L : layout) (s : mmap_state) (length : Nat) : Option request := do
  let length := PAGE_ALIGN_UP length
  let i ← find_address_owner s.vma_list s.kernel_cursor
  match (s.vma_list.drop i).find? (fun desc => decide (desc.type = .VMA_UNMAP ∧
      sub64 desc.end_addr (choose_start s.kernel_cursor desc) ≥ length)) with
  | none => find_vma_request { s with is_end_of_vm_reach := true,
                                      kernel_cursor := L.KERNEL_CHOOSE_START_ADDR } length
  | some desc =>
    let start_addr := choose_start s.kernel_cursor desc
    some ⟨s, start_addr, add64 start_addr length, .VMA_MAP⟩

def hint_request (s : mmap_state) (length hint_addr : Nat) : Option request :=
  let length := PAGE_ALIGN_UP length
  let hint_addr := PAGE_ALIGN_DOWN hint_addr
  let end_addr := PAGE_ALIGN_UP (add64 hint_addr length)
  match (find_address_owner_without_assert s.vma_list hint_addr).bind (s.vma_list[·]?) with
  | none => find_vma_request s length
  | some owner =>
    if owner.type = .VMA_UNMAP ∧ end_addr ≤ owner.end_addr then
      some ⟨s, hint_addr, end_addr, .VMA_MAP⟩
    else find_vma_request s length

def search_request (L : layout) (s : mmap_state) (addr_p length_p : Nat) : Option request :=
  if addr_p = 0 then choose_request L s length_p else hint_request s length_p addr_p

/-! ## Requests of the calls -/

/-- One request when the host has agreed, none otherwise. -/
def on_success (res : Except Nat Nat) (q : request) : List request :=
  match res with
  | .ok _ => [q]
  | .error _ => []

/-- One request when the host has refused. -/
def on_failure (res : Except Nat Nat) (q : request) : List request :=
  match res with
  | .ok _ => []
  | .error _ => [q]

theorem mem_on_success {res : Except Nat Nat} {q q' : request} (h : q' ∈ on_success res q) :
    q' = q ∧ ∃ r, res = .ok r := by
  cases res with
  | error errno => cases h
  | ok r => exact ⟨List.mem_singleton.mp h, r, rfl⟩

theorem mem_on_failure {res : Except Nat Nat} {q q' : request} (h : q' ∈ on_failure res q) :
    q' = q := by
  cases res with
  | error errno => exact List.mem_singleton.mp h
  | ok r => cases h

def mmap_requests (L : layout) (w : world) (addr_p length_p : Nat) (map_fixed : Bool) (a : answer) :
    List request :=
  if addr_p ≠ 0 ∧ map_fixed then
    on_success (mmap_syscall w.host a addr_p length_p).2
      ⟨w.vm, addr_p, PAGE_ALIGN_UP (add64 addr_p length_p), .VMA_MAP⟩
  else (search_request L w.vm addr_p length_p).toList ++
    match mmap_search L w.vm addr_p length_p with
    | some (vm, some addr) =>
      on_failure (mmap_syscall w.host a addr length_p).2
        ⟨vm, addr, PAGE_ALIGN_UP (add64 addr length_p), .VMA_UNMAP⟩
    | _ => []

def munmap_requests (w : world) (addr_p length_p : Nat) (a : answer) : List request :=
  on_success (munmap w.host a addr_p length_p).2
    ⟨w.vm, addr_p, PAGE_ALIGN_UP (add64 addr_p length_p), .VMA_UNMAP⟩

def mremap_to_requests (w : world) (old_addr_p old_size_p new_size_p new_addr_p : Nat) (a : answer) :
    List request :=
  let q : request := ⟨w.vm, old_addr_p, PAGE_ALIGN_UP (add64 old_addr_p old_size_p), .VMA_UNMAP⟩
  match (mremap_fixed w.host a old_addr_p old_size_p new_size_p new_addr_p).2 with
  | .error _ => []
  | .ok _ => q :: (q.made.map fun vm =>
      (⟨vm, new_addr_p, PAGE_ALIGN_UP (add64 new_addr_p new_size_p), .VMA_MAP⟩ : request)).toList

def mremap_shrink_requests (w : world) (old_addr_p old_size_p new_size_p : Nat) (a : answer) :
    List request :=
  if PAGE_ALIGN_UP old_size_p ≠ PAGE_ALIGN_UP new_size_p then
    on_success (mremap_in_place w.host a old_addr_p old_size_p new_size_p).2
      ⟨w.vm, add64 old_addr_p (PAGE_ALIGN_UP new_size_p),
        add64 old_addr_p (PAGE_ALIGN_UP old_size_p), .VMA_UNMAP⟩
  else []

def mremap_grow_requests (w : world) (old_addr_p old_size_p new_size_p : Nat) (a : answer) :
    List request :=
  let grow_start := add64 old_addr_p (PAGE_ALIGN_UP old_size_p)
  let grow_end := add64 old_addr_p (PAGE_ALIGN_UP new_size_p)
  if is_area_unmap w.vm grow_start grow_end = some true then
    on_success (mremap_in_place w.host a old_addr_p old_size_p new_size_p).2
      ⟨w.vm, grow_start, grow_end, .VMA_MAP⟩
  else []

def mremap_move_requests (L : layout) (w : world) (old_addr_p old_size_p new_size_p : Nat)
    (a : answer) : List request :=
  (choose_request L w.vm new_size_p).toList ++
    match find_vma_with_kernel_choose L w.vm new_size_p with
    | some (vm, some new_addr) =>
      let res := (mremap_fixed w.host a old_addr_p old_size_p new_size_p new_addr).2
      on_success res ⟨vm, old_addr_p, add64 old_addr_p old_size_p, .VMA_UNMAP⟩ ++
        on_failure res ⟨vm, new_addr, add64 new_addr (PAGE_ALIGN_UP new_size_p), .VMA_UNMAP⟩
    | _ => []

def mremap_requests (L : layout) (w : world) (old_addr_p old_size_p new_size_p : Nat)
    (maymove fixed : Bool) (new_addr_p : Nat) (a a' : answer) : List request :=
  if PAGE_ALIGN_DOWN old_addr_p ≠ old_addr_p then []
  else if ¬ is_area_valid w.vm old_addr_p (add64 old_addr_p old_size_p) then []
  else if fixed then mremap_to_requests w old_addr_p old_size_p new_size_p new_addr_p a
  else if PAGE_ALIGN_UP new_size_p ≤ PAGE_ALIGN_UP old_size_p then
    mremap_shrink_requests w old_addr_p old_size_p new_size_p a
  else mremap_grow_requests w old_addr_p old_size_p new_size_p a ++
    match mremap_grow w old_addr_p old_size_p new_size_p a with
    | some (w, .error _) =>
      if maymove then mremap_move_requests L w old_addr_p old_size_p new_size_p a' else []
    | _ => []

def shmat_place_request (L : layout) (s : mmap_state) (shmaddr_p length : Nat) : Option request :=
  if shmaddr_p = 0 then choose_request L s length
  else
    let start_addr := PAGE_ALIGN_DOWN shmaddr_p
    some ⟨s, start_addr, add64 start_addr length, .VMA_MAP⟩

/-- The page of `get_shmat_free_desc`. -/
def shm_insert_requests (L : layout) (w : world) (a : answer) : List request :=
  if w.vm.free_shmat = 0 then mmap_requests L w 0 PAGE_SIZE false a else []

def shmat_requests (L : layout) (w : world) (seg shmaddr_p : Nat) (stat : Except Nat Nat)
    (a a' : answer) : List request :=
  match stat with
  | .error _ => []
  | .ok shm_segsz =>
    let length := PAGE_ALIGN_UP shm_segsz
    (shmat_place_request L w.vm shmaddr_p length).toList ++
      match shmat_place L w.vm shmaddr_p length with
      | some (vm, some start_addr) =>
        match shmat_syscall w.host a seg shm_segsz start_addr with
        | (_, .error _) => [⟨vm, start_addr, add64 start_addr length, .VMA_UNMAP⟩]
        | (host, .ok _) => shm_insert_requests L ⟨vm, host⟩ a'
      | _ => []

def shmdt_requests (w : world) (shmaddr_p : Nat) (a : Except Nat Nat) : List request :=
  match (shmdt_syscall w.host a shmaddr_p).2, shm_find w.vm shmaddr_p with
  | .ok _, some desc => [⟨w.vm, desc.start_addr, desc.end_addr, .VMA_UNMAP⟩]
  | _, _ => []

def refill_requests (L : layout) (w : world) (a : answer) : List request :=
  if w.vm.desc_next_memory then [] else mmap_requests L w 0 PAGE_SIZE false a

/-- The requests of a call, in order. -/
def call.requests (L : layout) (w : world) : call → List request
  | .mmap addr_p length_p _ map_fixed a => mmap_requests L w addr_p length_p map_fixed a
  | .munmap addr_p length_p a => munmap_requests w addr_p length_p a
  | .mremap old_addr_p old_size_p new_size_p maymove fixed new_addr_p a a' =>
    mremap_requests L w old_addr_p old_size_p new_size_p maymove fixed new_addr_p a a'
  | .shmat seg shmaddr_p stat a a' => shmat_requests L w seg shmaddr_p stat a a'
  | .shmdt shmaddr_p a => shmdt_requests w shmaddr_p a
  | .refill a => refill_requests L w a

/-! ## A call is what its requests do -/

/-- The list is the same, and no descriptor is taken. -/
structure Untouched (vm vm' : mmap_state) : Prop where
  vma_list : vm'.vma_list = vm.vma_list
  free_vma : vm'.free_vma = vm.free_vma
  desc_next_memory : vm.desc_next_memory = true → vm'.desc_next_memory = true

/-- A run from a state makes these requests and ends in that state, or aborts. -/
inductive Trace : mmap_state → List request → Option mmap_state → Prop where
  | done {vm vm' : mmap_state} : Untouched vm vm' → Trace vm [] (some vm')
  | stop {vm : mmap_state} : Trace vm [] none
  | ask {vm vm' : mmap_state} {q : request} {qs : List request} {r : Option mmap_state} :
      Untouched vm q.vm → q.made = some vm' → Trace vm' qs r → Trace vm (q :: qs) r
  | fail {vm : mmap_state} {q : request} : Untouched vm q.vm → q.made = none → Trace vm [q] none

section traces

variable {vm vm' vm'' : mmap_state} {q : request} {qs qs' : List request}
  {r : Option mmap_state}

theorem Untouched.refl (vm : mmap_state) : Untouched vm vm := ⟨rfl, rfl, id⟩

theorem Untouched.trans (h : Untouched vm vm') (h' : Untouched vm' vm'') : Untouched vm vm'' :=
  ⟨h'.vma_list.trans h.vma_list, h'.free_vma.trans h.free_vma,
    fun hd => h'.desc_next_memory (h.desc_next_memory hd)⟩

theorem Trace.from (h : Untouched vm vm') (ht : Trace vm' qs r) : Trace vm qs r := by
  cases ht with
  | done hd => exact .done (h.trans hd)
  | stop => exact .stop
  | ask hq hmade ht => exact .ask (h.trans hq) hmade ht
  | fail hq hmade => exact .fail (h.trans hq) hmade

theorem Trace.append (ht : Trace vm qs (some vm')) (ht' : Trace vm' qs' r) :
    Trace vm (qs ++ qs') r := by
  generalize hr : some vm' = r' at ht
  induction ht with
  | done hd =>
    obtain rfl := Option.some.inj hr
    exact ht'.from hd
  | stop => cases hr
  | ask hq hmade _ ih => exact .ask hq hmade (ih hr)
  | fail => cases hr

theorem Trace.until (ht : Trace vm qs (some vm')) (h : Untouched vm' vm'') :
    Trace vm qs (some vm'') := by
  have := ht.append (.done h)
  rwa [List.append_nil] at this

/-- One request, and then nothing that touches the list. -/
theorem Trace.one {β : Type} {k : mmap_state → Option β} {g : β → mmap_state}
    (h : Untouched vm q.vm) (hk : ∀ vm', ∃ b, k vm' = some b ∧ Untouched vm' (g b)) :
    Trace vm [q] ((q.made.bind k).map g) := by
  cases hmade : q.made with
  | none => exact .fail h hmade
  | some vm' =>
    obtain ⟨b, hb, hg⟩ := hk vm'
    refine .ask h hmade ?_
    simp only [Option.bind_some, hb, Option.map_some]
    exact .done hg

/-- The list after a run of one request. -/
theorem Trace.single (ht : Trace vm [q] (some vm')) :
    ∃ v, q.made = some v ∧ vm'.vma_list = v.vma_list := by
  cases ht with
  | ask _ hmade ht =>
    cases ht with
    | done hd => exact ⟨_, hmade, hd.vma_list⟩

/-- What every request of a run keeps, the run keeps. -/
theorem Trace.keeps {P : List vma_desc → Prop} (ht : Trace vm qs (some vm'))
    (hstep : ∀ q ∈ qs, P q.vm.vma_list → ∀ vm₁, q.made = some vm₁ → P vm₁.vma_list)
    (h : P vm.vma_list) : P vm'.vma_list := by
  generalize hr : some vm' = r at ht
  induction ht with
  | done hd =>
    obtain rfl := Option.some.inj hr
    rw [hd.vma_list]
    exact h
  | stop => cases hr
  | ask hq hmade _ ih =>
    refine ih (fun q hmem => hstep q (List.mem_cons_of_mem _ hmem)) ?_ hr
    refine hstep _ List.mem_cons_self ?_ _ hmade
    rw [hq.vma_list]
    exact h
  | fail => cases hr

end traces

section calls

variable {L : layout} {s : mmap_state} {w : world}

theorem find_vma_trace (s : mmap_state) (length : Nat) :
    Trace s (find_vma_request s length).toList ((find_vma s length).map (·.1)) := by
  unfold find_vma_request find_vma
  dsimp only
  cases s.vma_list.find? (fun desc => decide (desc.type = .VMA_UNMAP ∧
      sub64 desc.end_addr desc.start_addr ≥ PAGE_ALIGN_UP length)) with
  | none => exact .done (.refl s)
  | some desc => exact Trace.one (g := fun p : mmap_state × Option Nat => p.1) (.refl s) fun vm' => ⟨_, rfl, .refl vm'⟩

theorem choose_trace (L : layout) (s : mmap_state) (length : Nat) :
    Trace s (choose_request L s length).toList
      ((find_vma_with_kernel_choose L s length).map (·.1)) := by
  unfold choose_request find_vma_with_kernel_choose
  cases find_address_owner s.vma_list s.kernel_cursor with
  | none => exact .stop
  | some i =>
    simp only [Option.bind_eq_bind, Option.bind_some]
    cases (s.vma_list.drop i).find? (fun desc => decide (desc.type = .VMA_UNMAP ∧
        sub64 desc.end_addr (choose_start s.kernel_cursor desc) ≥ PAGE_ALIGN_UP length)) with
    | none =>
      dsimp only
      refine Trace.from ?_ (find_vma_trace _ _)
      exact ⟨rfl, rfl, id⟩
    | some desc =>
      exact Trace.one (g := fun p : mmap_state × Option Nat => p.1) (.refl s) fun vm' => ⟨_, rfl, rfl, rfl, id⟩

theorem hint_trace (s : mmap_state) (length hint_addr : Nat) :
    Trace s (hint_request s length hint_addr).toList
      ((find_vma_with_hint s length hint_addr).map (·.1)) := by
  unfold hint_request find_vma_with_hint
  dsimp only
  cases (find_address_owner_without_assert s.vma_list (PAGE_ALIGN_DOWN hint_addr)).bind
      (s.vma_list[·]?) with
  | none => exact find_vma_trace _ _
  | some owner =>
    dsimp only
    split_ifs
    · exact Trace.one (g := fun p : mmap_state × Option Nat => p.1) (.refl s) fun vm' => ⟨_, rfl, .refl vm'⟩
    · exact find_vma_trace _ _

theorem search_trace (L : layout) (s : mmap_state) (addr_p length_p : Nat) :
    Trace s (search_request L s addr_p length_p).toList
      ((mmap_search L s addr_p length_p).map (·.1)) := by
  unfold search_request mmap_search
  split_ifs
  · exact choose_trace L s length_p
  · exact hint_trace s length_p addr_p

theorem mmap_trace (L : layout) (w : world) (addr_p length_p : Nat) (prot_exec map_fixed : Bool)
    (a : answer) : Trace w.vm (mmap_requests L w addr_p length_p map_fixed a)
      ((internal_mmap L w addr_p length_p prot_exec map_fixed a).map (·.1.vm)) := by
  unfold mmap_requests internal_mmap
  split_ifs with hfixed
  · rcases mmap_syscall w.host a addr_p length_p with ⟨host, errno | x⟩
    · exact .done (.refl _)
    · exact Trace.one (g := fun p : world × Except Nat Nat => p.1.vm) (.refl _) fun vm' => ⟨_, rfl, .refl vm'⟩
  · have hsearch := search_trace L w.vm addr_p length_p
    cases hm : mmap_search L w.vm addr_p length_p with
    | none =>
      rw [hm] at hsearch
      simpa using hsearch
    | some p =>
      obtain ⟨vm, res_vma⟩ := p
      rw [hm] at hsearch
      cases res_vma with
      | none => simpa using hsearch
      | some addr =>
        refine Trace.append hsearch ?_
        simp only [Option.bind_eq_bind, Option.bind_some]
        rcases mmap_syscall w.host a addr length_p with ⟨host, errno | x⟩
        · exact Trace.one (g := fun p : world × Except Nat Nat => p.1.vm) (.refl _) fun vm' => ⟨_, rfl, .refl vm'⟩
        · exact .done ⟨rfl, rfl, id⟩

theorem munmap_trace (w : world) (addr_p length_p : Nat) (a : answer) :
    Trace w.vm (munmap_requests w addr_p length_p a)
      ((internal_munmap w addr_p length_p a).map (·.1.vm)) := by
  unfold munmap_requests internal_munmap
  rcases munmap w.host a addr_p length_p with ⟨host, errno | x⟩
  · exact .done (.refl _)
  · exact Trace.one (g := fun p : world × Except Nat Nat => p.1.vm) (.refl _)
      fun vm' => ⟨_, rfl, .refl vm'⟩

section mremap

variable (L : layout) (w : world) (old old_size new_size new : Nat) (a : answer)

theorem mremap_to_trace : Trace w.vm (mremap_to_requests w old old_size new_size new a)
    ((mremap_to w old old_size new_size new a).map (·.1.vm)) := by
  unfold mremap_to_requests mremap_to request.made
  rcases mremap_fixed w.host a old old_size new_size new with ⟨host, errno | x⟩
  · exact .done (.refl _)
  · dsimp only
    cases hmade : w.vm.insert old (PAGE_ALIGN_UP (add64 old old_size)) .VMA_UNMAP with
    | none => exact .fail (.refl _) hmade
    | some vm =>
      refine .ask (.refl _) hmade ?_
      exact Trace.one (g := fun p : world × Except Nat Nat => p.1.vm) (.refl _)
        fun vm' => ⟨_, rfl, .refl vm'⟩

theorem mremap_shrink_trace : Trace w.vm (mremap_shrink_requests w old old_size new_size a)
    ((mremap_shrink w old old_size new_size a).map (·.1.vm)) := by
  unfold mremap_shrink_requests mremap_shrink
  dsimp only
  rcases mremap_in_place w.host a old old_size new_size with ⟨host, errno | x⟩
  · split_ifs <;> exact .done (.refl _)
  · dsimp only
    split_ifs with hne
    · exact Trace.one (g := fun p : world × Except Nat Nat => p.1.vm) (.refl _)
        fun vm' => ⟨_, rfl, .refl vm'⟩
    · exact .done (.refl _)

theorem mremap_grow_trace : Trace w.vm (mremap_grow_requests w old old_size new_size a)
    ((mremap_grow w old old_size new_size a).map (·.1.vm)) := by
  unfold mremap_grow_requests mremap_grow
  dsimp only
  cases is_area_unmap w.vm (add64 old (PAGE_ALIGN_UP old_size))
      (add64 old (PAGE_ALIGN_UP new_size)) with
  | none => exact .stop
  | some free =>
    simp only [Option.bind_eq_bind, Option.bind_some, Option.some.injEq]
    split_ifs
    · rcases mremap_in_place w.host a old old_size new_size with ⟨host, errno | x⟩
      · exact .done (.refl _)
      · exact Trace.one (g := fun p : world × Except Nat Nat => p.1.vm) (.refl _)
          fun vm' => ⟨_, rfl, .refl vm'⟩
    · exact .done (.refl _)

theorem mremap_move_trace : Trace w.vm (mremap_move_requests L w old old_size new_size a)
    ((mremap_move L w old old_size new_size a).map (·.1.vm)) := by
  unfold mremap_move_requests mremap_move
  have hsearch := choose_trace L w.vm new_size
  cases hm : find_vma_with_kernel_choose L w.vm new_size with
  | none =>
    rw [hm] at hsearch
    simpa using hsearch
  | some p =>
    obtain ⟨vm, new_possible_addr⟩ := p
    rw [hm] at hsearch
    cases new_possible_addr with
    | none => simpa using hsearch
    | some new_addr =>
      refine Trace.append hsearch ?_
      simp only [Option.bind_eq_bind, Option.bind_some]
      rcases mremap_fixed w.host a old old_size new_size new_addr with ⟨host, errno | x⟩
      · exact Trace.one (g := fun p : world × Except Nat Nat => p.1.vm) (.refl _)
          fun vm' => ⟨_, rfl, .refl vm'⟩
      · exact Trace.one (g := fun p : world × Except Nat Nat => p.1.vm) (.refl _)
          fun vm' => ⟨_, rfl, .refl vm'⟩

theorem mremap_trace (maymove fixed : Bool) (a' : answer) :
    Trace w.vm (mremap_requests L w old old_size new_size maymove fixed new a a')
      ((internal_mremap L w old old_size new_size maymove fixed new a a').map (·.1.vm)) := by
  unfold mremap_requests internal_mremap
  by_cases hal : PAGE_ALIGN_DOWN old ≠ old
  · rw [if_pos hal, if_pos hal]
    exact .done (.refl _)
  rw [if_neg hal, if_neg hal]
  by_cases hvalid : is_area_valid w.vm old (add64 old old_size)
  · rw [if_neg (not_not.mpr hvalid), if_neg (not_not.mpr hvalid)]
    by_cases hf : fixed = true
    · rw [if_pos hf, if_pos hf]
      exact mremap_to_trace w old old_size new_size new a
    rw [if_neg hf, if_neg hf]
    by_cases hle : PAGE_ALIGN_UP new_size ≤ PAGE_ALIGN_UP old_size
    · rw [if_pos hle, if_pos hle]
      exact mremap_shrink_trace w old old_size new_size a
    rw [if_neg hle, if_neg hle]
    -- a failed attempt to grow goes on in the state it leaves
    have hgrow := mremap_grow_trace w old old_size new_size a
    rcases hg : mremap_grow w old old_size new_size a with _ | ⟨v, errno | x⟩
    · rw [hg] at hgrow
      simpa using hgrow
    · rw [hg] at hgrow
      refine Trace.append hgrow ?_
      simp only [Option.bind_eq_bind, Option.bind_some]
      split_ifs
      · exact mremap_move_trace L v old old_size new_size a'
      · exact .done (.refl _)
    · rw [hg] at hgrow
      simpa using hgrow
  · rw [if_pos hvalid, if_pos hvalid]
    exact .done (.refl _)

end mremap

theorem shm_insert_trace (w : world) (start_addr end_addr : Nat) (a : answer) :
    Trace w.vm (shm_insert_requests L w a) ((shm_insert L w start_addr end_addr a).map (·.vm)) := by
  unfold shm_insert_requests shm_insert get_shmat_free_desc
  split_ifs
  · have hmmap := mmap_trace L w 0 PAGE_SIZE false false a
    rcases hm : internal_mmap L w 0 PAGE_SIZE false false a with _ | ⟨v, errno | x⟩
    · rw [hm] at hmmap
      exact hmmap
    · -- the requests are made, and then the assertion fails
      rw [hm] at hmmap
      have := Trace.append hmmap (@Trace.stop v.vm)
      simpa using this
    · rw [hm] at hmmap
      exact hmmap.until ⟨rfl, rfl, id⟩
  · exact .done ⟨rfl, rfl, id⟩

theorem shmat_place_trace (L : layout) (s : mmap_state) (shmaddr_p length : Nat) :
    Trace s (shmat_place_request L s shmaddr_p length).toList
      ((shmat_place L s shmaddr_p length).map (·.1)) := by
  unfold shmat_place_request shmat_place
  split_ifs
  · exact choose_trace L s length
  · exact Trace.one (g := fun p : mmap_state × Option Nat => p.1) (.refl s)
      fun vm' => ⟨_, rfl, .refl vm'⟩

theorem shmat_trace (L : layout) (w : world) (seg shmaddr_p : Nat) (stat : Except Nat Nat)
    (a a' : answer) : Trace w.vm (shmat_requests L w seg shmaddr_p stat a a')
      ((internal_shmat L w seg shmaddr_p stat a a').map (·.1.vm)) := by
  unfold shmat_requests internal_shmat
  cases stat with
  | error errno => exact .done (.refl _)
  | ok shm_segsz =>
    dsimp only
    have hplace := shmat_place_trace L w.vm shmaddr_p (PAGE_ALIGN_UP shm_segsz)
    cases hp : shmat_place L w.vm shmaddr_p (PAGE_ALIGN_UP shm_segsz) with
    | none =>
      rw [hp] at hplace
      simpa using hplace
    | some p =>
      obtain ⟨vm, start⟩ := p
      rw [hp] at hplace
      cases start with
      | none => simpa using hplace
      | some start_addr =>
        refine Trace.append hplace ?_
        simp only [Option.bind_eq_bind, Option.bind_some]
        rcases shmat_syscall w.host a seg shm_segsz start_addr with ⟨host, errno | x⟩
        · exact Trace.one (g := fun p : world × Except Nat Nat => p.1.vm) (.refl _)
            fun vm' => ⟨_, rfl, .refl vm'⟩
        · have hshm := shm_insert_trace (L := L) ⟨vm, host⟩ start_addr
            (add64 start_addr (PAGE_ALIGN_UP shm_segsz)) a'
          dsimp only
          cases hi : shm_insert L ⟨vm, host⟩ start_addr
              (add64 start_addr (PAGE_ALIGN_UP shm_segsz)) a' with
          | none =>
            rw [hi] at hshm
            exact hshm
          | some v =>
            rw [hi] at hshm
            exact hshm

theorem shmdt_trace (w : world) (shmaddr_p : Nat) (a : Except Nat Nat) :
    Trace w.vm (shmdt_requests w shmaddr_p a)
      ((internal_shmdt w shmaddr_p a).map (·.1.vm)) := by
  unfold shmdt_requests internal_shmdt shm_remove
  rcases shmdt_syscall w.host a shmaddr_p with ⟨host, errno | x⟩
  · exact .done (.refl _)
  · dsimp only
    cases shm_find w.vm shmaddr_p with
    | none => exact .done (.refl _)
    | some desc =>
      simp only [Option.bind_eq_bind, Option.bind_assoc]
      exact Trace.one (g := fun p : world × Except Nat Nat => p.1.vm) (.refl _)
        fun vm' => ⟨_, rfl, rfl, rfl, id⟩

theorem refill_trace (L : layout) (w : world) (a : answer) :
    Trace w.vm (refill_requests L w a)
      ((allocate_more_desc_memory_if_needed L w a).map (·.vm)) := by
  unfold refill_requests allocate_more_desc_memory_if_needed
  split_ifs
  · exact .done (.refl _)
  · have hmmap := mmap_trace L w 0 PAGE_SIZE false false a
    rcases hm : internal_mmap L w 0 PAGE_SIZE false false a with _ | ⟨v, errno | x⟩
    · rw [hm] at hmmap
      exact hmmap
    · rw [hm] at hmmap
      have := Trace.append hmmap (@Trace.stop v.vm)
      simpa using this
    · rw [hm] at hmmap
      exact hmmap.until ⟨rfl, rfl, fun _ => rfl⟩

/-- A call changes the list and the pool by its requests alone. -/
theorem call_trace (L : layout) (w : world) (c : call) :
    Trace w.vm (c.requests L w) ((c.exec L w).map (·.vm)) := by
  cases c with
  | mmap addr_p length_p prot_exec map_fixed a =>
    have := mmap_trace L w addr_p length_p prot_exec map_fixed a
    rwa [call.exec, Option.map_map]
  | munmap addr_p length_p a =>
    have := munmap_trace w addr_p length_p a
    rwa [call.exec, Option.map_map]
  | mremap old_addr_p old_size_p new_size_p maymove fixed new_addr_p a a' =>
    have := mremap_trace L w old_addr_p old_size_p new_size_p new_addr_p a maymove fixed a'
    rwa [call.exec, Option.map_map]
  | shmat seg shmaddr_p stat a a' =>
    have := shmat_trace L w seg shmaddr_p stat a a'
    rwa [call.exec, Option.map_map]
  | shmdt shmaddr_p a =>
    have := shmdt_trace w shmaddr_p a
    rwa [call.exec, Option.map_map]
  | refill a => exact refill_trace L w a

end calls

end Umeq.Memory
