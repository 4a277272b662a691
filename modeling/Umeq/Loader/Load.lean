import Umeq.Loader.Elf

/-! # `load32` and `load64`

    The two loaders have the same loop over the program headers, which calls the loader again for
    the interpreter, and the same undo loop. They differ in `mapSegment`, and `load32` knows
    fdpic files.

    The address space is a parameter: what `mmap_guest` and `munmap_guest` do to it, and what a write
    of zeros does. A result `none` is the end of the emulator: a failed assert, a fault, or a
    call of the loader that is nested too deep.
-/

namespace Umeq.Loader

/-! ## The address space -/

/-- The arguments of `mmap_guest` with `MAP_PRIVATE` and `MAP_FIXED`. The source is a file with an
    offset, or none for `MAP_ANONYMOUS`. -/
structure mmap_request where
  addr : Nat
  length : Nat
  prot : protection
  source : Option (List UInt8 × Nat)

/-- What can be done to an address space. -/
structure space (M : Type) where
  mmap_guest : M → mmap_request → Option (M × Nat)
  munmap_guest : M → Nat → Nat → Option M
  /-- Zeros from an address up to another one. -/
  clear : M → Nat → Nat → Option M

/-! ## State -/

/-- `struct elf32_fdpic_loadseg`. -/
structure fdpic_loadseg where
  addr : Nat
  p_vaddr : Nat
  p_memsz : Nat
  deriving DecidableEq, Repr

/-- `struct fdpic_info_32`. Of a load map only the segments are kept, at most two. -/
structure fdpic_info where
  is_fdpic : Bool
  stack_size : Nat
  dl_dynamic_section_addr : Nat
  dl_load_addr : Nat
  executable : List fdpic_loadseg
  dl : List fdpic_loadseg
  deriving DecidableEq, Repr

def no_fdpic : fdpic_info := ⟨false, 0, 0, 0, [], []⟩

/-- `struct elf_loader_info_32`, and `struct load_auxv_info_64` with an `fdpic_info` that is not
    used. -/
structure load_auxv_info where
  load_AT_PHDR : Nat
  load_AT_PHENT : Nat
  load_AT_PHNUM : Nat
  load_AT_ENTRY : Nat
  fdpic_info : fdpic_info
  deriving DecidableEq, Repr

/-- The address space and the two variables of the file. -/
structure load_state (M : Type) where
  mem : M
  startbrk : Nat
  load_AT_PHDR_init : Nat

variable {M : Type}

/-! ## Segments -/

section segments

variable (F : elf_format) (ops : space M)

/-- The segment at the address that it is moved to. -/
def relocate (segment : Elf_Phdr) (is_dl is_share_object : Bool) : Elf_Phdr :=
  if is_dl then { segment with p_vaddr := F.add segment.p_vaddr DL_LOAD_ADDR }
  else if is_share_object then { segment with p_vaddr := F.add segment.p_vaddr DL_SHARE_ADDR }
  else segment

/-- The headers of the file are taken to be in this segment. -/
def holds_headers (init : Nat) (segment : Elf_Phdr) : Prop :=
  segment.p_offset ≤ init ∧ init < F.add segment.p_offset segment.p_memsz

instance (init : Nat) (segment : Elf_Phdr) : Decidable (holds_headers F init segment) :=
  inferInstanceAs (Decidable (_ ∧ _))

/-- The address of something of the file in a segment that is moved. -/
def address_in (segment : Elf_Phdr) (offset : Nat) : Nat :=
  F.sub (F.add offset segment.p_vaddr) segment.p_offset

/-- The setting of `load_AT_PHDR`. -/
def adjust_PHDR (init : Nat) (segment : Elf_Phdr) (auxv_info : load_auxv_info) : load_auxv_info :=
  if holds_headers F init segment then { auxv_info with load_AT_PHDR := address_in F segment init }
  else auxv_info

/-- The file part. The result is false when it is not mapped where it should be. -/
def map_file (m : M) (segment : Elf_Phdr) (f : List UInt8) : Option (M × Bool) := do
  let vaddr := page_start segment.p_vaddr
  let padding := page_offset segment.p_vaddr
  let (m, mapFileResult) ← ops.mmap_guest m {
    addr := vaddr
    length := F.add segment.p_filesz padding
    prot := elfToMapProtection segment.p_flags
    source := some (f, page_start segment.p_offset) }
  return (m, mapFileResult = vaddr)

def zeroAddr (segment : Elf_Phdr) : Nat := F.add segment.p_vaddr segment.p_filesz

def zeroAddrSize (segment : Elf_Phdr) : Nat := F.sub segment.p_memsz segment.p_filesz

/-- The part of the zeros that is not in the last page of the file part. -/
def zeroAddrMapSize (segment : Elf_Phdr) : Nat :=
  F.sub (zeroAddrSize F segment) (F.sub (F.next_page (zeroAddr F segment)) (zeroAddr F segment))

/-- Clears the part of the segment that is not in the file, and the rest of its last page. -/
def clear_bss (m : M) (segment : Elf_Phdr) : Option M := do
  let zeroAddrEnd := zeroAddr F segment + zeroAddrSize F segment
  let m ← ops.clear m (zeroAddr F segment) zeroAddrEnd
  if (elfToMapProtection segment.p_flags).PROT_WRITE then
    ops.clear m zeroAddrEnd (page_start (zeroAddrEnd + (PAGE_SIZE - 1)))
  else some m

/-- Maps more memory when it is needed for that part. The result is false when it is not mapped
    where it should be; nothing is cleared then. -/
def map_bss (m : M) (segment : Elf_Phdr) : Option (M × Bool) :=
  if 0 < F.signed (zeroAddrMapSize F segment) then do
    let (m, mapFileResult) ← ops.mmap_guest m {
      addr := F.next_page (zeroAddr F segment)
      length := zeroAddrMapSize F segment
      prot := elfToMapProtection segment.p_flags
      source := none }
    if mapFileResult = F.next_page (zeroAddr F segment) then
      return (← clear_bss F ops m segment, true)
    else return (m, false)
  else do
    return (← clear_bss F ops m segment, true)

/-- What a segment of the program sets the break to. -/
def next_startbrk (s : load_state M) (segment : Elf_Phdr) (is_dl : Bool) : Nat :=
  if is_dl then s.startbrk else F.add segment.p_vaddr segment.p_memsz

/-- The file part is left out when it is empty. -/
def map_file_part (m : M) (segment : Elf_Phdr) (f : List UInt8) : Option (M × Bool) :=
  if segment.p_filesz = 0 then some (m, true) else map_file F ops m segment f

/-- `mapSegment` of `loader64.c`, with the status that it returns. -/
def mapSegment64 (s : load_state M) (f : List UInt8) (segment : Elf_Phdr)
    (auxv_info : load_auxv_info) (is_dl is_share_object : Bool) :
    Option (load_state M × load_auxv_info × Bool) := do
  let segment := relocate F segment is_dl is_share_object
  let auxv_info := adjust_PHDR F s.load_AT_PHDR_init segment auxv_info
  let (m, mapped) ← map_file_part F ops s.mem segment f
  if ¬ mapped then return ({ s with mem := m }, auxv_info, false)
  else if segment.p_memsz = segment.p_filesz then
    let startbrk := next_startbrk F s segment is_dl
    return ({ s with mem := m, startbrk := startbrk }, auxv_info, segment.p_filesz ≠ 0)
  else if ¬ segment.p_filesz < segment.p_memsz then none
  else
    let (m, mapped) ← map_bss F ops m segment
    -- the status of the file part is returned when the mapping of the zeros has failed
    if ¬ mapped then return ({ s with mem := m }, auxv_info, segment.p_filesz ≠ 0)
    else
      let startbrk := next_startbrk F s segment is_dl
      return ({ s with mem := m, startbrk := startbrk }, auxv_info, true)

/-- What `mapSegment` of `loader32.c` notes for an fdpic file. -/
def note_segment (segment : Elf_Phdr) (auxv_info : load_auxv_info) (is_dl : Bool) :
    Option load_auxv_info :=
  let info := auxv_info.fdpic_info
  if ¬ info.is_fdpic then some auxv_info
  else
    let loadmap := if is_dl then info.dl else info.executable
    let seg : fdpic_loadseg :=
      ⟨segment.p_vaddr, F.sub segment.p_vaddr (if is_dl then DL_LOAD_ADDR else 0), segment.p_memsz⟩
    if ¬ loadmap.length < 2 then none
    else if is_dl then some { auxv_info with fdpic_info := { info with dl := loadmap ++ [seg] } }
    else some { auxv_info with fdpic_info := { info with executable := loadmap ++ [seg] } }

/-- `mapSegment` of `loader32.c`, with the status that it returns. -/
def mapSegment32 (s : load_state M) (f : List UInt8) (segment : Elf_Phdr)
    (auxv_info : load_auxv_info) (is_dl is_share_object : Bool) :
    Option (load_state M × load_auxv_info × Bool) := do
  let segment := relocate F segment is_dl is_share_object
  let auxv_info := adjust_PHDR F s.load_AT_PHDR_init segment auxv_info
  let (m, mapped) ← map_file F ops s.mem segment f
  let finish (s : load_state M) (status : Bool) :=
    (note_segment F segment auxv_info is_dl).map fun auxv_info => (s, auxv_info, status)
  let startbrk := next_startbrk F s segment is_dl
  if ¬ mapped then finish { s with mem := m } false
  else if zeroAddrSize F segment = 0 then finish { s with mem := m, startbrk := startbrk } true
  else
    let (m, mapped) ← map_bss F ops m segment
    -- nothing is noted when the mapping of the zeros has failed
    if ¬ mapped then return ({ s with mem := m, startbrk := startbrk }, auxv_info, false)
    else finish { s with mem := m, startbrk := startbrk } true

end segments

/-! ## Files -/

/-- What the two loaders differ in. -/
structure loader (M : Type) where
  format : elf_format
  elf_is_fdpic : Elf_Ehdr → Bool
  mapSegment : load_state M → List UInt8 → Elf_Phdr → load_auxv_info → Bool → Bool →
    Option (load_state M × load_auxv_info × Bool)

def loader64 (ops : space M) : loader M where
  format := elf64
  elf_is_fdpic := fun _ => false
  mapSegment := mapSegment64 elf64 ops

def loader32 (ops : space M) : loader M where
  format := elf32
  elf_is_fdpic := fun hdr => hdr.e_flags.testBit 12
  mapSegment := mapSegment32 elf32 ops

/-- Where the loop over the headers is. -/
structure loop_state (M : Type) where
  state : load_state M
  auxv_info : load_auxv_info
  dl_entry : Nat

/-- A call of the loader for a file by its name: what it leaves, and its result. -/
abbrev load_result (M : Type) : Type := Option (load_state M × load_auxv_info × Nat)

section files

variable (L : loader M) (ops : space M)

/-- What the program takes over of its interpreter. -/
def take_over (auxv_info dl_auxv_info : load_auxv_info) : load_auxv_info :=
  let info := dl_auxv_info.fdpic_info
  { auxv_info with
    fdpic_info := { auxv_info.fdpic_info with
      dl := info.dl
      dl_dynamic_section_addr := info.dl_dynamic_section_addr
      dl_load_addr := info.dl_load_addr } }

/-- One turn of the loop. The result is false when it jumps to `end` with an entry of 0. -/
def load_segment (load_dl : List UInt8 → load_state M → load_result M) (f : List UInt8)
    (hdr : Elf_Ehdr) (is_dl : Bool) (l : loop_state M) (i : Nat) : Option (loop_state M × Bool) :=
  match L.format.getSegment f hdr i with
  | none => some (l, false)
  | some segment =>
    if segment.p_type = PT_LOAD then do
      let (s, auxv_info, status) ←
        L.mapSegment l.state f segment l.auxv_info is_dl (hdr.e_type = ET_DYN)
      return ({ l with state := s, auxv_info := auxv_info }, status)
    else if segment.p_type = PT_INTERP then do
      let dl_name ← dl_copy_dl_name f segment
      let (s, dl_auxv_info, dl_entry) ← load_dl dl_name l.state
      if dl_entry = 0 then return ({ l with state := s, dl_entry := 0 }, false)
      else return (⟨s, take_over l.auxv_info dl_auxv_info, dl_entry⟩, true)
    else if ¬ is_dl ∧ l.auxv_info.fdpic_info.is_fdpic ∧ segment.p_type = PT_GNU_STACK then
      some ({ l with auxv_info := { l.auxv_info with
        fdpic_info := { l.auxv_info.fdpic_info with stack_size := segment.p_memsz } } }, true)
    else some (l, true)

/-- The loop over the headers, with the one that it stops at. -/
def load_segments (load_dl : List UInt8 → load_state M → load_result M) (f : List UInt8)
    (hdr : Elf_Ehdr) (is_dl : Bool) : List Nat → loop_state M → Option (loop_state M × Option Nat)
  | [], l => some (l, none)
  | i :: is, l => do
    let (l, status) ← load_segment L load_dl f hdr is_dl l i
    if status then load_segments load_dl f hdr is_dl is l else return (l, some i)

/-- The undo loop, from the header before `i` downwards. -/
def unmap_segments (f : List UInt8) (hdr : Elf_Ehdr) : Nat → M → Option M
  | 0, m => some m
  | i + 1, m =>
    match L.format.getSegment f hdr i with
    | none => unmap_segments f hdr i m
    | some segment =>
      if segment.p_type = PT_LOAD then do
        unmap_segments f hdr i (← ops.munmap_guest m segment.p_vaddr segment.p_memsz)
      else unmap_segments f hdr i m

/-- The segment of a load map at a place of the array of two. -/
def loadseg_at (loadmap : List fdpic_loadseg) (i : Nat) : fdpic_loadseg := loadmap.getD i ⟨0, 0, 0⟩

/-- `get_fdpic_dynamic_addr`: the dynamic section, and the segment that it belongs to. -/
def get_fdpic_dynamic_addr (f : List UInt8) (hdr : Elf_Ehdr) (loadmap : List fdpic_loadseg) :
    Option Nat := do
  let F := L.format
  let is_dynamic (i : Nat) : Option Elf_Shdr :=
    (F.getSection f hdr i).filter fun section_ => section_.sh_type = SHT_DYNAMIC
  let section_ ← (List.range hdr.e_shnum).findSome? is_dynamic
  let i ← [0, 1].find? fun i =>
    (loadseg_at loadmap i).p_vaddr ≤ section_.sh_addr ∧
      F.add section_.sh_addr section_.sh_size ≤
        F.add (loadseg_at loadmap i).p_vaddr (loadseg_at loadmap i).p_memsz
  return F.add (F.sub section_.sh_addr (loadseg_at loadmap i).p_vaddr) (loadseg_at loadmap i).addr

/-- The information on an fdpic interpreter. -/
def note_dynamic (f : List UInt8) (hdr : Elf_Ehdr) (is_dl : Bool) (auxv_info : load_auxv_info) :
    Option load_auxv_info :=
  let info := auxv_info.fdpic_info
  if is_dl ∧ info.is_fdpic then do
    let addr ← get_fdpic_dynamic_addr L f hdr info.dl
    return { auxv_info with
      fdpic_info := { info with dl_dynamic_section_addr := addr, dl_load_addr := DL_LOAD_ADDR } }
  else some auxv_info

/-- What the loader has of an interpreter before it is loaded: nothing is written. -/
def no_auxv_info : load_auxv_info := ⟨0, 0, 0, 0, no_fdpic⟩

/-- `load32_internal` and `load64_internal`, for at most as many nested calls as given. -/
def load_internal (files : List UInt8 → Option (List UInt8)) :
    Nat → List UInt8 → load_state M → load_auxv_info → Bool →
      Option (load_state M × load_auxv_info × Nat)
  | 0, _, _, _, _ => none
  | depth + 1, file, s, auxv_info, is_dl =>
    match files file with
    | none => some (s, auxv_info, 0)
    | some f =>
      let (hdr, entry) := L.format.getEntry f is_dl
      if entry = 0 then some (s, auxv_info, 0)
      else do
        let s := { s with load_AT_PHDR_init := hdr.e_phoff }
        let auxv_info := { auxv_info with
          load_AT_PHENT := hdr.e_phentsize
          load_AT_PHNUM := hdr.e_phnum
          load_AT_ENTRY := entry
          fdpic_info := { no_fdpic with is_fdpic := L.elf_is_fdpic hdr } }
        let load_dl (dl_name : List UInt8) (s : load_state M) :=
          load_internal files depth dl_name s no_auxv_info true
        let (l, stopped) ←
          load_segments L load_dl f hdr is_dl (List.range hdr.e_phnum) ⟨s, auxv_info, 0⟩
        match stopped with
        | none =>
          let auxv_info ← note_dynamic L f hdr is_dl l.auxv_info
          return (l.state, auxv_info, if l.dl_entry ≠ 0 then l.dl_entry else entry)
        | some i =>
          let m ← unmap_segments L ops f hdr i l.state.mem
          return ({ l.state with mem := m }, l.auxv_info, 0)

end files

/-- `load64`. -/
def load64 (ops : space M) (files : List UInt8 → Option (List UInt8)) (depth : Nat)
    (file : List UInt8) (s : load_state M) (auxv_info : load_auxv_info) : load_result M :=
  load_internal (loader64 ops) ops files depth file s auxv_info false

/-- `load32`. -/
def load32 (ops : space M) (files : List UInt8 → Option (List UInt8)) (depth : Nat)
    (file : List UInt8) (s : load_state M) (auxv_info : load_auxv_info) : load_result M :=
  load_internal (loader32 ops) ops files depth file s auxv_info false

end Umeq.Loader
