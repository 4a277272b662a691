import Umeq.Memory.Failed
import Umeq.Memory.Lookups

/-! # The break of `arm64_brk.c`

    The heap is grown with `mmap_guest`, with the end of its mapping as a hint. The area may be
    placed elsewhere: `arm64_brk` then keeps its break, but not the address space, where the
    area stays mapped. For a break in the last page of the 64 bits, the end of the request
    wraps around to 0, an address without an owner, and the emulator stops. And `mmap_guest`
    collects the unmaps that threads have left behind, also for a growth that fails.

    * `Heap`: the break lies in the mapping, and the mapping is mapped.
    * `Answered`: what a call leaves, and what it returns.
    * `Apart`: the finished unmaps are none of the heap's pages.
    * `spared`: the requests that come to none of the three.
-/

namespace Umeq.Memory.Brk

/-! ## `arm64_brk.c` -/

/-- The globals. -/
structure globals where
  startbrk_64_aligned : Nat
  curbrk : Nat
  mapbrk : Nat

structure state where
  pool : pool_state
  brk : globals

/-- `mmap_guest` for anonymous memory that is not executable, without `MAP_FIXED`. -/
def mmap_guest (p : pool_state) (addr length : Nat) (a : answer) (ans : unmap_answers)
    (a' : answer) : Option (pool_state × Except Nat Nat) := do
  let (w, res) ← internal_mmap arm64_layout p.world addr length false false a
  let p ← { p with world := w }.allocate_more_desc_memory_if_needed arm64_layout ans a'
  some (p, res)

def new_mapbrk (new_brk : Nat) : Nat := PAGE_ALIGN_DOWN (add64 new_brk PAGE_SIZE)

/-- The length of the `mmap_guest` of a call. -/
def growth (s : state) (new_brk : Nat) : Nat := sub64 (new_mapbrk new_brk) s.brk.mapbrk

/-- `arm64_brk`, without the bytes that it sets to 0. -/
def arm64_brk (s : state) (new_brk : Nat) (a : answer) (ans : unmap_answers) (a' : answer) :
    Option (state × Nat) :=
  if new_brk < s.brk.startbrk_64_aligned then some (s, s.brk.curbrk)
  else if new_brk ≠ 0 ∧ s.brk.mapbrk ≤ new_brk then do
    match ← mmap_guest s.pool s.brk.mapbrk (growth s new_brk) a ans a' with
    | (p, .ok map_result) =>
      if map_result ≠ s.brk.mapbrk then some (⟨p, s.brk⟩, s.brk.curbrk)
      else some (⟨p, { s.brk with mapbrk := new_mapbrk new_brk, curbrk := new_brk }⟩, new_brk)
    | (p, .error _) => some (⟨p, s.brk⟩, s.brk.curbrk)
  else some (⟨s.pool, { s.brk with curbrk := new_brk }⟩, new_brk)

/-! ## What is to hold -/

/-- The break lies in the mapping of the heap, which is mapped here and on the host. -/
structure Heap (s : state) : Prop where
  start_le : s.brk.startbrk_64_aligned ≤ s.brk.curbrk
  cur_le : s.brk.curbrk ≤ s.brk.mapbrk
  mapped : ∀ x, s.brk.startbrk_64_aligned ≤ x → x < s.brk.mapbrk →
    typeAt s.pool.world.vm.vma_list x = some .VMA_MAP ∧ s.pool.world.host.mapped (x / PAGE_SIZE)

/-- The call returns the break, and one that does not set it leaves everything as it was. -/
structure Answered (s s' : state) (new_brk ret : Nat) : Prop where
  value : ret = s'.brk.curbrk
  heap : Heap s'
  kept : s'.brk.curbrk ≠ new_brk →
    s'.brk = s.brk ∧ KeepsTypes s.pool.world.vm.vma_list s'.pool.world.vm.vma_list

/-- The host refuses an area of `length` bytes at `start`. -/
def refused (a : answer) (start length : Nat) : Prop := ¬ (a = .accepts ∧ range_args start length)

/-- Whole pages of the space. -/
def whole (d : ongoing_desc) : Prop :=
  Aligned d.start_addr ∧ Aligned d.end_addr ∧ d.start_addr < d.end_addr ∧
    target.arm64.space d.start_addr ∧ target.arm64.space d.end_addr

/-- The unmaps that have finished are whole pages, and none of `[lo, hi[`. -/
def Apart (ds : List ongoing_desc) (lo hi : Nat) : Prop :=
  ∀ d ∈ ds, d.finished = true → whole d ∧ (d.end_addr ≤ lo ∨ hi ≤ d.start_addr)

/-- No unmap has finished; or the growth is granted, and the host agrees to the unmaps, which
    are none of the heap as it will be. -/
def collects (s : state) (new_brk : Nat) (a : answer) (ans : unmap_answers) : Prop :=
  finished s.pool.ongoing_vma_list = 0 ∨
    (∃ q, hint_request s.pool.world.vm (growth s new_brk) s.brk.mapbrk = some q ∧
      ¬ refused a q.start_addr (growth s new_brk)) ∧
    Apart s.pool.ongoing_vma_list s.brk.startbrk_64_aligned (new_mapbrk new_brk) ∧
    ∀ d ∈ s.pool.ongoing_vma_list, d.finished = true → ans d = .accepts

/-- The descriptors of the free list are enough to mark the area, and to give it back. -/
def pool_lasts (vm : mmap_state) (q : request) (given_back : Prop) : Prop :=
  ∀ u, insert_area vm.vma_list q.start_addr q.end_addr .VMA_MAP = some u →
    u.taken ≤ vm.free_vma ∧ (given_back →
      ∀ v, insert_area u.vma_list q.start_addr q.end_addr .VMA_UNMAP = some v →
        v.taken + u.taken ≤ vm.free_vma + u.released)

/-- The free list is enough for the call: for its request alone, or for the unmaps too. -/
def free_list_lasts (p : pool_state) (q : request) (given_back : Prop) : Prop :=
  finished p.ongoing_vma_list = 0 ∧ pool_lasts p.world.vm q given_back ∨
    finished p.ongoing_vma_list + 4 ≤ p.world.vm.free_vma

/-- With the page in reserve they are enough, and there is a page to replace it. -/
def reserve_replaced (p : pool_state) (q : request) (ans : unmap_answers) (a' : answer) : Prop :=
  finished p.ongoing_vma_list + 6 ≤ p.world.vm.free_vma + DESC_PER_PAGE ∧ a' = .accepts ∧
    ∀ vm h w rest, q.made = some vm →
      collect_ongoing_unmap ans p.ongoing_vma_list ⟨vm, h⟩ = some (w, rest) →
        choose_request arm64_layout w.vm PAGE_SIZE ≠ none

/-- For a growth: what the call collects is not missed. If an area is found, its end does not
    wrap around, and it is the one at the end of the heap unless the host refuses it.
    Descriptors do not run out; or they do, for a growth that is granted, and there is a page
    for new ones. -/
def spared (s : state) (new_brk : Nat) (a : answer) (ans : unmap_answers) (a' : answer) : Prop :=
  s.brk.startbrk_64_aligned ≤ new_brk → s.brk.mapbrk ≤ new_brk →
    collects s new_brk a ans ∧
    ∀ q, hint_request s.pool.world.vm (growth s new_brk) s.brk.mapbrk = some q →
      new_brk + PAGE_SIZE < 2 ^ 64 ∧
      (q.start_addr = s.brk.mapbrk ∨ refused a q.start_addr (growth s new_brk)) ∧
      (free_list_lasts s.pool q (refused a q.start_addr (growth s new_brk)) ∨
        ¬ refused a q.start_addr (growth s new_brk) ∧ reserve_replaced s.pool q ans a')

/-! ## Runs -/

/-- A call of `arm64_brk`, or another event of the address space. -/
inductive event where
  | brk (new_brk : Nat) (a : answer) (ans : unmap_answers) (a' : answer)
  | other (ev : Memory.event)

def event.exec (s : state) : event → Option state
  | .brk new_brk a ans a' => (arm64_brk s new_brk a ans a').map (·.1)
  | .other ev => (ev.exec arm64_layout s.pool).map fun p => ⟨p, s.brk⟩

def inside (w : world) : entry → Prop
  | .lazily c => c.inside .arm64 w
  | .eagerly c => c.inside .arm64 w
  | .munmap_guest_ongoing _ _ => True

/-- The other calls give addresses of the space, leave the heap mapped, and collect none of it. -/
def event.spared (s : state) : event → Prop
  | .brk new_brk a ans a' => Brk.spared s new_brk a ans a'
  | .other (.finish _) => True
  | .other (.enter e _ _) => inside s.pool.world e ∧
    ∀ p, e.body arm64_layout s.pool = some p → (Heap s → Heap ⟨p, s.brk⟩) ∧
      (e.refills p = true →
        Apart p.ongoing_vma_list s.brk.startbrk_64_aligned s.brk.mapbrk)

/-! ## Requests -/

section requests

variable {T : target} {L : layout} {vm vm' : mmap_state} {w w' : world} {q : request} {u : area_update}
  {s e addr length hint r x : Nat} {t : vma_type} {a : answer}

/-- A failed call has not reached the host, or is refused there. -/
theorem mmap_error_host {errno : Nat}
    (hcall : internal_mmap L w addr length false false a = some (w', .error errno)) :
    w'.host = w.host := by
  unfold internal_mmap at hcall
  rw [if_neg (by simp)] at hcall
  obtain ⟨⟨vm, res_vma⟩, -, hcall⟩ := Option.bind_eq_some_iff.mp hcall
  cases res_vma with
  | none =>
    obtain ⟨rfl, -⟩ := Prod.mk.inj (Option.some.inj hcall)
    rfl
  | some start =>
    rcases hsys : mmap_syscall w.host a start length with ⟨host, errno | x⟩ <;>
      simp only [hsys] at hcall
    · obtain ⟨vm', -, hcall⟩ := Option.bind_eq_some_iff.mp hcall
      obtain ⟨rfl, -⟩ := Prod.mk.inj (Option.some.inj hcall)
      rcases range_syscall_cases hsys with ⟨rfl, -⟩ | ⟨-, hx, -⟩
      · rfl
      · cases hx
    · cases (Prod.mk.inj (Option.some.inj hcall)).2

/-- A request for memory leaves what is mapped. -/
theorem marked_keeps (hl : Ordered vm.vma_list) (hm : Marked vm vm' q)
    (hx : typeAt vm.vma_list x = some .VMA_MAP) : typeAt vm'.vma_list x = some .VMA_MAP := by
  obtain ⟨u, hu, hlist⟩ := hm
  rw [hlist]
  rcases insert_area_cases hl hu with ⟨-, hret⟩ | ⟨-, -, heq⟩ | ⟨-, -, d, -, -, -, -, hret⟩
  · have := hret.agree x _ hx
    rwa [ite_self] at this
  · rw [heq]
    exact hx
  · have := hret.agree x _ hx
    rwa [ite_self] at this

/-- The area that a `mmap` has returned. -/
structure Mapped (w w' : world) (length : Nat) (q : request) : Prop where
  takes : Takes w.vm.vma_list (PAGE_ALIGN_UP length) q
  marked : Marked w.vm w'.vm q
  free : ∀ x, q.start_addr ≤ x → x < q.start_addr + PAGE_ALIGN_UP length →
    typeAt w.vm.vma_list x = some .VMA_UNMAP
  host : w'.host = w.host.fill q.start_addr (q.start_addr + PAGE_ALIGN_UP length) (some .other)
  args : range_args q.start_addr length

theorem orderly_of_sealed (h : SealedIn T w.vm) : Orderly w.vm.vma_list := by
  refine ⟨h.list_sealed.ordered, ?_⟩
  intro d hd
  have htop := top_le T
  have hbounds := h.list_sealed.bounds d hd
  simp only at hbounds ⊢
  omega

theorem search_free (h : SealedIn T w.vm)
    (hwrap : PAGE_ALIGN_DOWN addr + PAGE_ALIGN_UP length < 2 ^ 64)
    (hq : search_request T.layout w.vm addr length = some q) :
    Fills w.vm.vma_list (PAGE_ALIGN_UP length) q := by
  unfold search_request at hq
  split_ifs at hq
  · exact choose_fills (orderly_of_sealed h) hq
  · exact hint_fills (orderly_of_sealed h) hwrap hq

theorem mmap_ok (h : SealedIn T w.vm) (hin : mmap_inside T w addr length false a)
    (hcall : internal_mmap T.layout w addr length false false a = some (w', .ok r)) :
    ∃ q, r = q.start_addr ∧ Mapped w w' length q := by
  unfold mmap_inside at hin
  rw [if_neg (by simp)] at hin
  unfold internal_mmap at hcall
  rw [if_neg (by simp)] at hcall
  obtain ⟨⟨vm, res_vma⟩, hfind, hcall⟩ := Option.bind_eq_some_iff.mp hcall
  obtain ⟨hr, -⟩ := search_result h hin.1 hfind
  cases res_vma with
  | none => cases (Prod.mk.inj (Option.some.inj hcall)).2
  | some start =>
    obtain ⟨q, hq, rfl⟩ := Option.map_eq_some_iff.mp hr.symm
    have htakes := search_takes h hin.1 hin.2 hq
    have htrace := search_trace T.layout w.vm addr length
    rw [hq, hfind] at htrace
    have hmarked := Trace.marked htrace htakes.vma_list htakes.type
    rcases hsys : mmap_syscall w.host a q.start_addr length with ⟨host, errno | x⟩ <;>
      simp only [hsys] at hcall
    · obtain ⟨vm', -, hcall⟩ := Option.bind_eq_some_iff.mp hcall
      cases (Prod.mk.inj (Option.some.inj hcall)).2
    · obtain ⟨rfl, hres⟩ := Prod.mk.inj (Option.some.inj hcall)
      rcases range_syscall_cases hsys with ⟨-, ⟨errno, hx⟩, -⟩ | ⟨hargs, hx, hhost⟩
      · cases hx
      · obtain rfl := Except.ok.inj hx
        have hfree := (search_free h hin.2 hq).range
        exact ⟨q, (Except.ok.inj hres).symm, htakes, hmarked,
          fun x => hfree.free h.list_sealed.ordered, hhost, hargs⟩

theorem Mapped.keeps {length : Nat} (h : Mapped w w' length q) (hl : Ordered w.vm.vma_list)
    (hx : typeAt w.vm.vma_list x = some .VMA_MAP ∧ w.host.mapped (x / PAGE_SIZE)) :
    typeAt w'.vm.vma_list x = some .VMA_MAP ∧ w'.host.mapped (x / PAGE_SIZE) := by
  refine ⟨marked_keeps hl h.marked hx.1, ?_⟩
  rw [h.host, mapped_fill]
  unfold setRange
  split_ifs
  · rfl
  · exact hx.2

theorem Mapped.area {length : Nat} (h : Mapped w w' length q) (hl : Ordered w.vm.vma_list)
    (hlo : q.start_addr ≤ x) (hhi : x < q.start_addr + PAGE_ALIGN_UP length) :
    typeAt w'.vm.vma_list x = some .VMA_MAP ∧ w'.host.mapped (x / PAGE_SIZE) := by
  have hend := h.takes.end_addr
  obtain ⟨u, hu, hlist⟩ := h.marked
  constructor
  · rw [hlist]
    rcases insert_area_cases hl hu with ⟨-, hret⟩ | ⟨hle, -⟩ | ⟨hle, -⟩
    · have := hret.agree x _ (h.free x hlo hhi)
      rwa [if_pos (by omega)] at this
    · have := h.takes.available.pos
      omega
    · have := h.takes.available.pos
      omega
  · rw [h.host, mapped_fill]
    have hal := h.takes.available.start_aligned
    have hsize := h.takes.available.size_aligned
    rw [setRange_page hal (hal.add hsize), if_pos ⟨hlo, hhi⟩]
    rfl

theorem refill_idle (h : w.vm.desc_next_memory = true) :
    allocate_more_desc_memory_if_needed L w a = some w := by
  unfold allocate_more_desc_memory_if_needed
  rw [if_pos h]

end requests

/-! ## Finished unmaps -/

section collect

variable {w w' : world} {vm : mmap_state} {d : ongoing_desc} {ds rest : List ongoing_desc}
  {ans : unmap_answers} {lo hi : Nat}

theorem Apart.tail (h : Apart (d :: ds) lo hi) : Apart ds lo hi :=
  fun d hd => h d (List.mem_cons_of_mem _ hd)

end collect

/-! ## `mmap_guest` -/

section guest

variable {w w' w'' : world} {p p' : pool_state} {q : request} {rest : List ongoing_desc}
  {addr length r x lo hi : Nat} {a a' : answer} {ans : unmap_answers}

/-- A state in which a page of descriptors is in reserve. -/
structure Ready (w : world) : Prop where
  space : SealedIn .arm64 w.vm
  reserve : w.vm.desc_next_memory = true

theorem Ready.avail (h : Ready w) : 100 ≤ Memory.avail w.vm := by
  unfold Memory.avail
  rw [if_pos h.reserve]
  exact Nat.le_add_left _ _

theorem Ready.paged (h : Ready w) : Paged w.vm where
  orderly := orderly_of_sealed h.space
  free_aligned := h.space.list_sealed.free_aligned
  cursor := h.space.cursor.1
  attached := fun d hd => (h.space.attached d hd).1

theorem free_list_lasts.pool {back : Prop} (h : free_list_lasts p q back) :
    pool_lasts p.world.vm q back := by
  rcases h with ⟨-, h⟩ | h
  · exact h
  · intro u hu
    have := insert_area_taken hu
    refine ⟨by omega, fun _ v hv => ?_⟩
    have := insert_area_taken hv
    omega

end guest

/-! ## Steps -/

section steps

variable {s s' : state} {q : request} {new_brk ret startbrk : Nat} {w : world} {p : pool_state}
  {a a' : answer} {ans : unmap_answers}

/-- What the calls keep. -/
structure Good (s : state) : Prop where
  ready : Ready s.pool.world
  heap : Heap s
  map_aligned : Aligned s.brk.mapbrk
  map_pos : 0 < s.brk.mapbrk

/-- Memory that the kernel's side chooses, or that is found with a hint, is none of the heap. -/
theorem map_spared {addr length : Nat} (h : Good s)
    (hpos : 0 < PAGE_ALIGN_UP length) (hwrap : PAGE_ALIGN_DOWN addr + PAGE_ALIGN_UP length < 2 ^ 64)
    (hap : Apart s.pool.ongoing_vma_list s.brk.startbrk_64_aligned s.brk.mapbrk) :
    event.spared s (.other (.enter (Memory.mmap_guest addr length false false a) ans a')) := by
  have hin : mmap_inside .arm64 s.pool.world addr length false a := by
    unfold mmap_inside
    rw [if_neg (by simp)]
    exact ⟨hpos, hwrap⟩
  refine ⟨hin, ?_⟩
  intro p hbody
  obtain ⟨w, hcall, rfl⟩ := Option.map_eq_some_iff.mp hbody
  obtain ⟨⟨w, res⟩, hmap, rfl⟩ := Option.map_eq_some_iff.mp hcall
  refine ⟨fun hheap => ⟨hheap.start_le, hheap.cur_le, ?_⟩, fun _ => hap⟩
  intro x hlo hhi
  have hx := hheap.mapped x hlo hhi
  cases res with
  | ok r =>
    obtain ⟨q, -, hmapped⟩ := mmap_ok (T := .arm64) h.ready.space hin hmap
    exact hmapped.keeps h.ready.space.list_sealed.ordered hx
  | error errno =>
    have hkeeps := (mmap_failed (target_cursor_ok .arm64) h.ready.paged hmap).mpr (by
      intro _ hzero
      omega)
    exact ⟨hkeeps x _ hx.1, by rw [mmap_error_host hmap]; exact hx.2⟩

end steps

def leave_stack : event :=
  .other (.enter (.munmap_guest_ongoing 0x4000001000 0x1000) agrees .accepts)

end Umeq.Memory.Brk
