import Umeq.Lib.Runs
import Umeq.Memory.InsertArea

/-! # The five address-space calls and the host kernel under them

    `internal_mmap`, `internal_munmap`, `internal_mremap`, `internal_shmat` and
    `internal_shmdt` keep `vma_list` in step with what they ask from the host.
    The host is a map from pages to what backs them, in guest addresses
    (`g_2_h` only adds an offset). Its answers are inputs of the calls: it may
    refuse anything, and it refuses arguments outside `*_args`.

    A result `none` of a call is an abort: `fatal`, a failed assert, or a null
    pointer. Arithmetic on `uint64_t` is written with `add64` and `sub64`.
-/

namespace Umeq.Memory

/-! ## Machine arithmetic -/

def PAGE_SIZE : Nat := 4096

def add64 (a b : Nat) : Nat := (a + b) % 2 ^ 64

def sub64 (a b : Nat) : Nat := (a + 2 ^ 64 - b) % 2 ^ 64

def PAGE_ALIGN_DOWN (addr : Nat) : Nat := addr / PAGE_SIZE * PAGE_SIZE

def PAGE_ALIGN_UP (addr : Nat) : Nat := PAGE_ALIGN_DOWN (add64 addr (PAGE_SIZE - 1))

def ENOMEM : Nat := 12
def EFAULT : Nat := 14
def EINVAL : Nat := 22

/-- `sizeof(struct vma_desc)` is 40 and `sizeof(struct shmat_desc)` 32. -/
def DESC_PER_PAGE : Nat := PAGE_SIZE / 40
def SHMAT_DESC_PER_PAGE : Nat := PAGE_SIZE / 32

/-! ## The host kernel -/

/-- What backs a mapped page. A page of a System V segment keeps the address at
    which the first page of the segment would sit: `shmdt` looks for it. -/
inductive backing where
  | other
  | shm (base : Int) (seg : Nat)
  deriving DecidableEq, Repr

/-- The pages the host has mapped. -/
structure host where
  page : Nat → Option backing

/-- What the host answers to a system call. -/
inductive answer where
  | accepts
  | refuses (errno : Nat)
  deriving DecidableEq, Repr

/-- No user mapping of the host ends above this address. -/
def TASK_SIZE : Nat := 0x7ffffffff000

/-- Set the backing of the pages that start in `[s, e[`. -/
def host.fill (h : host) (s e : Nat) (b : Option backing) : host where
  page := fun p => if s ≤ p * PAGE_SIZE ∧ p * PAGE_SIZE < e then b else h.page p

/-- The arguments a `mmap(MAP_FIXED)` or a `munmap` must have. -/
def range_args (addr length : Nat) : Prop :=
  addr % PAGE_SIZE = 0 ∧ 0 < length ∧ addr + length ≤ TASK_SIZE

instance (addr length : Nat) : Decidable (range_args addr length) :=
  inferInstanceAs (Decidable (_ ∧ _ ∧ _))

/-- A call that sets the backing of one range, and returns `ret`. -/
def range_syscall (h : host) (a : answer) (addr length : Nat) (b : Option backing) (ret : Nat) :
    host × Except Nat Nat :=
  match a with
  | .refuses errno => (h, .error errno)
  | .accepts =>
    if range_args addr length then (h.fill addr (addr + PAGE_ALIGN_UP length) b, .ok ret)
    else (h, .error EINVAL)

def mmap_syscall (h : host) (a : answer) (addr length : Nat) : host × Except Nat Nat :=
  range_syscall h a addr length (some .other) addr

def munmap (h : host) (a : answer) (addr length : Nat) : host × Except Nat Nat :=
  range_syscall h a addr length none 0

/-- `shmat` with `SHM_REMAP` of a segment of `segsz` bytes. -/
def shmat_syscall (h : host) (a : answer) (seg segsz addr : Nat) : host × Except Nat Nat :=
  range_syscall h a addr segsz (some (.shm addr seg)) addr

/-- The backing of pages moved from `old` to `new`. -/
def backing.shift (old new : Nat) : backing → backing
  | .other => .other
  | .shm base seg => .shm (base + new - old) seg

/-- The arguments a `mremap` must have, its new address apart. An `old_size` of 0
    is one of them: the host then makes a second mapping of a shared area. -/
def mremap_args (old_addr old_size new_size : Nat) : Prop :=
  old_addr % PAGE_SIZE = 0 ∧ old_addr + old_size ≤ TASK_SIZE ∧ 0 < new_size ∧ new_size ≤ TASK_SIZE

instance (old_addr old_size new_size : Nat) :
    Decidable (mremap_args old_addr old_size new_size) :=
  inferInstanceAs (Decidable (_ ∧ _ ∧ _ ∧ _))

/-- `mremap` without `MREMAP_FIXED`, as the code uses it: to shrink, or to grow in
    place. Without a mapping at `old_addr` there is nothing to resize. -/
def mremap_in_place (h : host) (a : answer) (old_addr old_size new_size : Nat) :
    host × Except Nat Nat :=
  let old_end := old_addr + PAGE_ALIGN_UP old_size
  let new_end := old_addr + PAGE_ALIGN_UP new_size
  match a with
  | .refuses errno => (h, .error errno)
  | .accepts =>
    match h.page (old_addr / PAGE_SIZE) with
    | none => (h, .error EFAULT)
    | some b =>
      if mremap_args old_addr old_size new_size ∧ 0 < old_size ∧
          old_addr + new_size ≤ TASK_SIZE then
        if new_end ≤ old_end then (h.fill new_end old_end none, .ok old_addr)
        else (h.fill old_end new_end (some b), .ok old_addr)
      else (h, .error EINVAL)

/-- `mremap` with `MREMAP_FIXED`: the pages of the old range move to the new one. -/
def mremap_fixed (h : host) (a : answer) (old_addr old_size new_size new_addr : Nat) :
    host × Except Nat Nat :=
  match a with
  | .refuses errno => (h, .error errno)
  | .accepts =>
    match h.page (old_addr / PAGE_SIZE) with
    | none => (h, .error EFAULT)
    | some b =>
      if mremap_args old_addr old_size new_size ∧ range_args new_addr new_size ∧
          (new_addr + PAGE_ALIGN_UP new_size ≤ old_addr ∨
            old_addr + PAGE_ALIGN_UP old_size ≤ new_addr) then
        ((h.fill old_addr (old_addr + PAGE_ALIGN_UP old_size) none).fill new_addr
          (new_addr + PAGE_ALIGN_UP new_size) (some (b.shift old_addr new_addr)), .ok new_addr)
      else (h, .error EINVAL)

/-- `shmdt`: the host picks a segment attached at `addr` and unmaps its pages that
    are still there. -/
def shmdt_syscall (h : host) (a : Except Nat Nat) (addr : Nat) : host × Except Nat Nat :=
  match a with
  | .error errno => (h, .error errno)
  | .ok seg =>
    (⟨fun p => if h.page p = some (.shm addr seg) then none else h.page p⟩, .ok 0)

/-! ## State of `mmap_common.c` -/

structure shmat_desc where
  start_addr : Nat
  end_addr : Nat
  deriving DecidableEq, Repr

/-- The globals the calls use. The two free lists are counted. -/
structure mmap_state where
  vma_list : List vma_desc
  free_vma : Nat
  /-- A page of descriptors is in reserve. -/
  desc_next_memory : Bool
  kernel_cursor : Nat
  is_end_of_vm_reach : Bool
  shmat_list : List shmat_desc
  free_shmat : Nat
  /-- Number of `cleanCaches(0, ~0)` made. -/
  cache_cleans : Nat
  deriving DecidableEq, Repr

/-- The part of the two `*_mmap.c` files that the common code is compiled with. -/
structure layout where
  /-- `vma_list` after `mmap_init`. -/
  vma_init : List vma_desc
  KERNEL_CHOOSE_START_ADDR : Nat
  FORCE_ALIGNMENT : Option Nat

def arm64_layout : layout where
  vma_init := arm64_initial_list
  KERNEL_CHOOSE_START_ADDR := 0x4000000000
  FORCE_ALIGNMENT := some (64 * 1024)

/-- On arm the list ends with the page of the kernel helpers. Its excluded end is
    one byte too far on purpose ("in that case this ... bad algo will fail"). -/
def arm_layout : layout where
  vma_init := [⟨.VMA_UNMAP, 0x8000, 0x80000000⟩, ⟨.VMA_MAP, 0x80000000, 0x80001000⟩,
    ⟨.VMA_UNMAP, 0xffff0000, 0xffff1001⟩]
  KERNEL_CHOOSE_START_ADDR := 0x40000000
  FORCE_ALIGNMENT := none

/-- The state `mmap_init` leaves, before the first call. -/
def mmap_init (L : layout) : mmap_state where
  vma_list := L.vma_init
  free_vma := DESC_PER_PAGE - L.vma_init.length
  desc_next_memory := true
  kernel_cursor := L.KERNEL_CHOOSE_START_ADDR
  is_end_of_vm_reach := false
  shmat_list := []
  free_shmat := 0
  cache_cleans := 0

/-- `arm64_get_free_desc`, with `allocate_more_desc` and its assert. -/
def arm64_get_free_desc (s : mmap_state) : Option mmap_state :=
  if s.free_vma = 0 then
    if s.desc_next_memory then
      some { s with free_vma := DESC_PER_PAGE - 1, desc_next_memory := false }
    else none
  else some { s with free_vma := s.free_vma - 1 }

def get_free_descs : Nat → mmap_state → Option mmap_state
  | 0, s => some s
  | n + 1, s => do get_free_descs n (← arm64_get_free_desc s)

/-- `insert_area` on the state: the descriptors it takes and gives back are those
    of `free_vma_list`. -/
def mmap_state.insert (s : mmap_state) (start_addr end_addr : Nat) (type : vma_type) :
    Option mmap_state := do
  let u ← insert_area s.vma_list start_addr end_addr type
  let s' ← get_free_descs u.taken s
  some { s' with vma_list := u.vma_list, free_vma := s'.free_vma + u.released }

/-! ## Searching the list -/

/-- `is_area_unmap`; `none` is the `fatal` of `find_address_owner`. -/
def is_area_unmap (s : mmap_state) (start_addr end_addr : Nat) : Option Bool := do
  let i ← find_address_owner s.vma_list (PAGE_ALIGN_DOWN start_addr)
  let owner ← s.vma_list[i]?
  some (decide (owner.type = .VMA_UNMAP ∧ PAGE_ALIGN_UP end_addr ≤ owner.end_addr))

/-- `is_area_valid`. -/
def is_area_valid (s : mmap_state) (start_addr end_addr : Nat) : Bool :=
  match find_address_owner_without_assert s.vma_list (PAGE_ALIGN_DOWN start_addr) with
  | none => false
  | some i =>
    match s.vma_list[i]? with
    | none => false
    | some owner => decide (owner.type = .VMA_MAP ∧ PAGE_ALIGN_UP end_addr ≤ owner.end_addr)

/-- `find_vma`. The address found, or `none` for `ENOMEM_64`. -/
def find_vma (s : mmap_state) (length : Nat) : Option (mmap_state × Option Nat) :=
  let length := PAGE_ALIGN_UP length
  match s.vma_list.find? (fun desc => decide (desc.type = .VMA_UNMAP ∧
      sub64 desc.end_addr desc.start_addr ≥ length)) with
  | none => some (s, none)
  | some desc => do
    let s' ← s.insert desc.start_addr (add64 desc.start_addr length) .VMA_MAP
    some (s', some desc.start_addr)

/-- Where the search of `find_vma_with_kernel_choose` starts in a descriptor. -/
def choose_start (kernel_cursor : Nat) (desc : vma_desc) : Nat :=
  if desc.start_addr ≥ kernel_cursor then desc.start_addr else kernel_cursor

/-- The cursor after `length` bytes have been taken at `res`. -/
def next_cursor (L : layout) (res length : Nat) : Nat :=
  match L.FORCE_ALIGNMENT with
  | none => add64 res length
  | some a => add64 (add64 res length) (a - 1) / a * a

/-- `find_vma_with_kernel_choose`. -/
def find_vma_with_kernel_choose (L : layout) (s : mmap_state) (length : Nat) :
    Option (mmap_state × Option Nat) := do
  let length := PAGE_ALIGN_UP length
  let i ← find_address_owner s.vma_list s.kernel_cursor
  match (s.vma_list.drop i).find? (fun desc => decide (desc.type = .VMA_UNMAP ∧
      sub64 desc.end_addr (choose_start s.kernel_cursor desc) ≥ length)) with
  | none =>
    -- the space above the cursor is used up: search the whole list
    find_vma { s with is_end_of_vm_reach := true,
                      kernel_cursor := L.KERNEL_CHOOSE_START_ADDR } length
  | some desc =>
    let start_addr := choose_start s.kernel_cursor desc
    let s' ← s.insert start_addr (add64 start_addr length) .VMA_MAP
    some ({ s' with kernel_cursor := next_cursor L start_addr length }, some start_addr)

/-- `find_vma_with_hint`. -/
def find_vma_with_hint (s : mmap_state) (length hint_addr : Nat) :
    Option (mmap_state × Option Nat) :=
  let length := PAGE_ALIGN_UP length
  let hint_addr := PAGE_ALIGN_DOWN hint_addr
  let end_addr := PAGE_ALIGN_UP (add64 hint_addr length)
  match (find_address_owner_without_assert s.vma_list hint_addr).bind (s.vma_list[·]?) with
  | none => find_vma s length
  | some owner =>
    if owner.type = .VMA_UNMAP ∧ end_addr ≤ owner.end_addr then do
      let s' ← s.insert hint_addr end_addr .VMA_MAP
      some (s', some hint_addr)
    else find_vma s length

/-! ## The calls -/

/-- The emulator's map and the host's. -/
structure world where
  vm : mmap_state
  host : host

/-- The area a `mmap` without a fixed address is given. -/
def mmap_search (L : layout) (s : mmap_state) (addr_p length_p : Nat) :
    Option (mmap_state × Option Nat) :=
  if addr_p = 0 then find_vma_with_kernel_choose L s length_p
  else find_vma_with_hint s length_p addr_p

/-- `internal_mmap`. Of `prot` and `flags` only `PROT_EXEC` and `MAP_FIXED` are read. -/
def internal_mmap (L : layout) (w : world) (addr_p length_p : Nat) (prot_exec map_fixed : Bool)
    (a : answer) : Option (world × Except Nat Nat) :=
  if addr_p ≠ 0 ∧ map_fixed then do
    let (host, res) := mmap_syscall w.host a addr_p length_p
    match res with
    | .error errno => some ({ w with host := host }, .error errno)
    | .ok r =>
      let vm ← w.vm.insert addr_p (PAGE_ALIGN_UP (add64 addr_p length_p)) .VMA_MAP
      some (⟨vm, host⟩, .ok r)
  else do
    let (vm, res_vma) ← mmap_search L w.vm addr_p length_p
    match res_vma with
    | none => some ({ w with vm := vm }, .error ENOMEM)
    | some addr =>
      let (host, res) := mmap_syscall w.host a addr length_p
      match res with
      | .error errno =>
        let vm ← vm.insert addr (PAGE_ALIGN_UP (add64 addr length_p)) .VMA_UNMAP
        some (⟨vm, host⟩, .error errno)
      | .ok r =>
        let cleans := if vm.is_end_of_vm_reach ∧ prot_exec then 1 else 0
        some (⟨{ vm with cache_cleans := vm.cache_cleans + cleans }, host⟩, .ok r)

/-- `internal_munmap`. -/
def internal_munmap (w : world) (addr_p length_p : Nat) (a : answer) :
    Option (world × Except Nat Nat) := do
  let (host, res) := munmap w.host a addr_p length_p
  match res with
  | .error errno => some ({ w with host := host }, .error errno)
  | .ok r =>
    let vm ← w.vm.insert addr_p (PAGE_ALIGN_UP (add64 addr_p length_p)) .VMA_UNMAP
    some (⟨vm, host⟩, .ok r)

/-- The `MREMAP_FIXED` branch of `internal_mremap`. -/
def mremap_to (w : world) (old_addr_p old_size_p new_size_p new_addr_p : Nat) (a : answer) :
    Option (world × Except Nat Nat) := do
  let (host, res) := mremap_fixed w.host a old_addr_p old_size_p new_size_p new_addr_p
  match res with
  | .error errno => some ({ w with host := host }, .error errno)
  | .ok _ =>
    let vm ← w.vm.insert old_addr_p (PAGE_ALIGN_UP (add64 old_addr_p old_size_p)) .VMA_UNMAP
    let vm ← vm.insert new_addr_p (PAGE_ALIGN_UP (add64 new_addr_p new_size_p)) .VMA_MAP
    some (⟨vm, host⟩, .ok new_addr_p)

/-- The branch that shrinks. -/
def mremap_shrink (w : world) (old_addr_p old_size_p new_size_p : Nat) (a : answer) :
    Option (world × Except Nat Nat) := do
  let old_size_align_p := PAGE_ALIGN_UP old_size_p
  let new_size_align_p := PAGE_ALIGN_UP new_size_p
  let (host, res) := mremap_in_place w.host a old_addr_p old_size_p new_size_p
  match res with
  | .error errno => some ({ w with host := host }, .error errno)
  | .ok _ =>
    if old_size_align_p ≠ new_size_align_p then do
      let vm ← w.vm.insert (add64 old_addr_p new_size_align_p)
        (add64 old_addr_p old_size_align_p) .VMA_UNMAP
      some (⟨vm, host⟩, .ok old_addr_p)
    else some ({ w with host := host }, .ok old_addr_p)

/-- The attempt to grow in place. -/
def mremap_grow (w : world) (old_addr_p old_size_p new_size_p : Nat) (a : answer) :
    Option (world × Except Nat Nat) := do
  let grow_start := add64 old_addr_p (PAGE_ALIGN_UP old_size_p)
  let grow_end := add64 old_addr_p (PAGE_ALIGN_UP new_size_p)
  if ← is_area_unmap w.vm grow_start grow_end then
    let (host, res) := mremap_in_place w.host a old_addr_p old_size_p new_size_p
    match res with
    | .error errno => some ({ w with host := host }, .error errno)
    | .ok _ =>
      let vm ← w.vm.insert grow_start grow_end .VMA_MAP
      some (⟨vm, host⟩, .ok old_addr_p)
  else some (w, .error ENOMEM)

/-- The move to an area chosen by the emulator. The end of the area given back is
    not rounded here, unlike in the other branches. -/
def mremap_move (L : layout) (w : world) (old_addr_p old_size_p new_size_p : Nat) (a : answer) :
    Option (world × Except Nat Nat) := do
  let (vm, new_possible_addr) ← find_vma_with_kernel_choose L w.vm new_size_p
  match new_possible_addr with
  | none => some ({ w with vm := vm }, .error ENOMEM)
  | some new_addr =>
    let (host, res) := mremap_fixed w.host a old_addr_p old_size_p new_size_p new_addr
    match res with
    | .ok _ =>
      let vm ← vm.insert old_addr_p (add64 old_addr_p old_size_p) .VMA_UNMAP
      some (⟨vm, host⟩, .ok new_addr)
    | .error errno =>
      let vm ← vm.insert new_addr (add64 new_addr (PAGE_ALIGN_UP new_size_p)) .VMA_UNMAP
      some (⟨vm, host⟩, .error errno)

/-- `internal_mremap`. The host answers at most two calls: `a` is for the only or
    first one, `a'` for the move after a failed attempt to grow in place. -/
def internal_mremap (L : layout) (w : world) (old_addr_p old_size_p new_size_p : Nat)
    (maymove fixed : Bool) (new_addr_p : Nat) (a a' : answer) :
    Option (world × Except Nat Nat) :=
  if PAGE_ALIGN_DOWN old_addr_p ≠ old_addr_p then some (w, .error EINVAL)
  else if ¬ is_area_valid w.vm old_addr_p (add64 old_addr_p old_size_p) then
    some (w, .error EFAULT)
  else if fixed then mremap_to w old_addr_p old_size_p new_size_p new_addr_p a
  else if PAGE_ALIGN_UP new_size_p ≤ PAGE_ALIGN_UP old_size_p then
    mremap_shrink w old_addr_p old_size_p new_size_p a
  else do
    match ← mremap_grow w old_addr_p old_size_p new_size_p a with
    | (w, .ok r) => some (w, .ok r)
    | (w, .error errno) =>
      if maymove then mremap_move L w old_addr_p old_size_p new_size_p a'
      else some (w, .error errno)

/-- `shm_find`. -/
def shm_find (s : mmap_state) (start_addr : Nat) : Option shmat_desc :=
  s.shmat_list.find? (fun desc => start_addr = desc.start_addr)

/-- `get_shmat_free_desc`, with `allocate_more_shmat_desc` and its asserts. -/
def get_shmat_free_desc (L : layout) (w : world) (a : answer) : Option world :=
  if w.vm.free_shmat = 0 then do
    match ← internal_mmap L w 0 PAGE_SIZE false false a with
    | (w, .ok _) => some { w with vm := { w.vm with free_shmat := SHMAT_DESC_PER_PAGE - 1 } }
    | (_, .error _) => none
  else some { w with vm := { w.vm with free_shmat := w.vm.free_shmat - 1 } }

/-- `shm_insert`. -/
def shm_insert (L : layout) (w : world) (start_addr end_addr : Nat) (a : answer) :
    Option world := do
  let w ← get_shmat_free_desc L w a
  some { w with vm := { w.vm with shmat_list := ⟨start_addr, end_addr⟩ :: w.vm.shmat_list } }

/-- `shm_remove`; an unknown address only gives a warning. -/
def shm_remove (s : mmap_state) (start_addr : Nat) : Option mmap_state :=
  match shm_find s start_addr with
  | none => some s
  | some desc => do
    let s ← s.insert desc.start_addr desc.end_addr .VMA_UNMAP
    some { s with shmat_list := s.shmat_list.erase desc, free_shmat := s.free_shmat + 1 }

/-- The area a `shmat` is given. It is marked in both cases, free or not. -/
def shmat_place (L : layout) (s : mmap_state) (shmaddr_p length : Nat) :
    Option (mmap_state × Option Nat) :=
  if shmaddr_p = 0 then find_vma_with_kernel_choose L s length
  else do
    let start_addr := PAGE_ALIGN_DOWN shmaddr_p
    let s' ← s.insert start_addr (add64 start_addr length) .VMA_MAP
    some (s', some start_addr)

/-- `internal_shmat`. `stat` is the answer of `shmctl(IPC_STAT)`: the size of the
    segment; `a` is that of `shmat` itself and `a'` that of a nested `mmap`. -/
def internal_shmat (L : layout) (w : world) (seg shmaddr_p : Nat) (stat : Except Nat Nat)
    (a a' : answer) : Option (world × Except Nat Nat) :=
  match stat with
  | .error errno => some (w, .error errno)
  | .ok shm_segsz => do
    let length := PAGE_ALIGN_UP shm_segsz
    let (vm, start) ← shmat_place L w.vm shmaddr_p length
    match start with
    | none => some ({ w with vm := vm }, .error ENOMEM)
    | some start_addr =>
      let (host, res) := shmat_syscall w.host a seg shm_segsz start_addr
      match res with
      | .error errno =>
        let vm ← vm.insert start_addr (add64 start_addr length) .VMA_UNMAP
        some (⟨vm, host⟩, .error errno)
      | .ok r =>
        let w ← shm_insert L ⟨vm, host⟩ start_addr (add64 start_addr length) a'
        some (w, .ok r)

/-- `internal_shmdt`. -/
def internal_shmdt (w : world) (shmaddr_p : Nat) (a : Except Nat Nat) :
    Option (world × Except Nat Nat) := do
  let (host, res) := shmdt_syscall w.host a shmaddr_p
  match res with
  | .error errno => some ({ w with host := host }, .error errno)
  | .ok r =>
    let vm ← shm_remove w.vm shmaddr_p
    some (⟨vm, host⟩, .ok r)

/-- `allocate_more_desc_memory_if_needed`, which every public entry point runs
    after its call. No unmap is ongoing between the five calls. -/
def allocate_more_desc_memory_if_needed (L : layout) (w : world) (a : answer) : Option world :=
  if w.vm.desc_next_memory then some w
  else do
    match ← internal_mmap L w 0 PAGE_SIZE false false a with
    | (w, .ok _) => some { w with vm := { w.vm with desc_next_memory := true } }
    | (_, .error _) => none

/-! ## Runs -/

/-- One call, with the answers the host gives to it. -/
inductive call where
  | mmap (addr_p length_p : Nat) (prot_exec map_fixed : Bool) (a : answer)
  | munmap (addr_p length_p : Nat) (a : answer)
  | mremap (old_addr_p old_size_p new_size_p : Nat) (maymove fixed : Bool) (new_addr_p : Nat)
      (a a' : answer)
  | shmat (seg shmaddr_p : Nat) (stat : Except Nat Nat) (a a' : answer)
  | shmdt (shmaddr_p : Nat) (a : Except Nat Nat)
  | refill (a : answer)

def call.exec (L : layout) (w : world) : call → Option world
  | .mmap addr_p length_p prot_exec map_fixed a =>
    (internal_mmap L w addr_p length_p prot_exec map_fixed a).map (·.1)
  | .munmap addr_p length_p a => (internal_munmap w addr_p length_p a).map (·.1)
  | .mremap old_addr_p old_size_p new_size_p maymove fixed new_addr_p a a' =>
    (internal_mremap L w old_addr_p old_size_p new_size_p maymove fixed new_addr_p a a').map (·.1)
  | .shmat seg shmaddr_p stat a a' => (internal_shmat L w seg shmaddr_p stat a a').map (·.1)
  | .shmdt shmaddr_p a => (internal_shmdt w shmaddr_p a).map (·.1)
  | .refill a => allocate_more_desc_memory_if_needed L w a

/-- The calls from the state `mmap_init` leaves, on a host with nothing mapped. -/
def address_space (L : layout) : Runs.System world call where
  init := ⟨mmap_init L, ⟨fun _ => none⟩⟩
  exec := fun w c => c.exec L w

end Umeq.Memory
