import Umeq.Lib.Bytes

/-! # ELF files, as `loader32.c` and `loader64.c` read them

    The two loaders read the headers of a file with `read` into the structures of `elf.h`. Here a
    file is the list of its bytes, and what differs between the two loaders is an `elf_format`.
    Addresses and offsets are numbers below `2 ^ bits`, with the arithmetic of the C type.
-/

namespace Umeq.Loader

open Bytes (ofLE le)

/-! ## Constants -/

def PAGE_SIZE : Nat := 4096
def DL_LOAD_ADDR : Nat := 0x40000000
def DL_SHARE_ADDR : Nat := 0x20000000
def DL_NAME_MAX_SIZE : Nat := 256

def ET_EXEC : Nat := 2
def ET_DYN : Nat := 3
def PT_LOAD : Nat := 1
def PT_INTERP : Nat := 3
def PT_GNU_STACK : Nat := 0x6474e551
def SHT_DYNAMIC : Nat := 6

/-! ## Headers -/

/-- `Elf64_Ehdr` and `Elf32_Ehdr`. -/
structure Elf_Ehdr where
  e_ident : List UInt8
  e_type : Nat
  e_machine : Nat
  e_entry : Nat
  e_phoff : Nat
  e_shoff : Nat
  e_flags : Nat
  e_phentsize : Nat
  e_phnum : Nat
  e_shentsize : Nat
  e_shnum : Nat
  deriving DecidableEq, Repr

/-- `Elf64_Phdr` and `Elf32_Phdr`. -/
structure Elf_Phdr where
  p_type : Nat
  p_flags : Nat
  p_offset : Nat
  p_vaddr : Nat
  p_filesz : Nat
  p_memsz : Nat
  deriving DecidableEq, Repr

/-- `Elf32_Shdr`. -/
structure Elf_Shdr where
  sh_type : Nat
  sh_addr : Nat
  sh_size : Nat
  deriving DecidableEq, Repr

/-- The number in the `n` bytes at an offset. -/
def field (bytes : List UInt8) (offset n : Nat) : Nat := ofLE ((bytes.drop offset).take n)

/-- The layout of the structures, and the files that a loader takes. -/
structure elf_format where
  bits : Nat
  ELFCLASS : UInt8
  EM : Nat
  sizeof_Ehdr : Nat
  sizeof_Phdr : Nat
  sizeof_Shdr : Nat
  Ehdr : List UInt8 → Elf_Ehdr
  Phdr : List UInt8 → Elf_Phdr
  Shdr : List UInt8 → Elf_Shdr

/-- For `load64`. -/
def elf64 : elf_format where
  bits := 64
  ELFCLASS := 2
  EM := 183
  sizeof_Ehdr := 64
  sizeof_Phdr := 56
  sizeof_Shdr := 64
  Ehdr := fun b => {
    e_ident := b.take 16
    e_type := field b 16 2
    e_machine := field b 18 2
    e_entry := field b 24 8
    e_phoff := field b 32 8
    e_shoff := field b 40 8
    e_flags := field b 48 4
    e_phentsize := field b 54 2
    e_phnum := field b 56 2
    e_shentsize := field b 58 2
    e_shnum := field b 60 2 }
  Phdr := fun b => {
    p_type := field b 0 4
    p_flags := field b 4 4
    p_offset := field b 8 8
    p_vaddr := field b 16 8
    p_filesz := field b 32 8
    p_memsz := field b 40 8 }
  Shdr := fun b => {
    sh_type := field b 4 4
    sh_addr := field b 16 8
    sh_size := field b 32 8 }

/-- For `load32`. -/
def elf32 : elf_format where
  bits := 32
  ELFCLASS := 1
  EM := 40
  sizeof_Ehdr := 52
  sizeof_Phdr := 32
  sizeof_Shdr := 40
  Ehdr := fun b => {
    e_ident := b.take 16
    e_type := field b 16 2
    e_machine := field b 18 2
    e_entry := field b 24 4
    e_phoff := field b 28 4
    e_shoff := field b 32 4
    e_flags := field b 36 4
    e_phentsize := field b 42 2
    e_phnum := field b 44 2
    e_shentsize := field b 46 2
    e_shnum := field b 48 2 }
  Phdr := fun b => {
    p_type := field b 0 4
    p_offset := field b 4 4
    p_vaddr := field b 8 4
    p_filesz := field b 16 4
    p_memsz := field b 20 4
    p_flags := field b 24 4 }
  Shdr := fun b => {
    sh_type := field b 4 4
    sh_addr := field b 12 4
    sh_size := field b 20 4 }

/-! ## Pages and files -/

/-- `& ~PAGE_MASK` and `& PAGE_MASK`. -/
def page_start (a : Nat) : Nat := a / PAGE_SIZE * PAGE_SIZE

def page_offset (a : Nat) : Nat := a % PAGE_SIZE

/-- `lseek` and `read` of `n` bytes. An `off_t` is signed. -/
def read_at (f : List UInt8) (offset n : Nat) : Option (List UInt8) :=
  if offset < 2 ^ 63 ∧ (offset + n ≤ f.length ∨ n = 0) then some ((f.drop offset).take n) else none

def ELFMAG : List UInt8 := [0x7f, 0x45, 0x4c, 0x46]

/-- What a file of this kind is moved by. -/
def bias (hdr : Elf_Ehdr) (is_dl : Bool) : Nat :=
  if is_dl then DL_LOAD_ADDR else if hdr.e_type = ET_DYN then DL_SHARE_ADDR else 0

/-- A header that was not read has no program headers. -/
def no_header : Elf_Ehdr := ⟨[], 0, 0, 0, 0, 0, 0, 0, 0, 0, 0⟩

/-- The name of an interpreter. `none` is a failed assert, a name that does not fit into its
    array, or an array that was not written. -/
def dl_copy_dl_name (f : List UInt8) (segment : Elf_Phdr) : Option (List UInt8) := do
  let p_filesz := min (segment.p_filesz % 2 ^ 32) DL_NAME_MAX_SIZE
  let name ← read_at f segment.p_offset p_filesz
  if segment.p_filesz < DL_NAME_MAX_SIZE then some (name.takeWhile (· ≠ 0)) else none

namespace elf_format

variable (F : elf_format)

/-! ## Arithmetic -/

/-- The arithmetic of `Elf64_Addr` and of `Elf32_Addr`, and of `guest_ptr`. -/
def add (a b : Nat) : Nat := (a + b) % 2 ^ F.bits

def sub (a b : Nat) : Nat := (a + 2 ^ F.bits - b) % 2 ^ F.bits

/-- A size as `int64_t` or as `int32_t`. -/
def signed (a : Nat) : Int := if a < 2 ^ (F.bits - 1) then a else a - (2 ^ F.bits : Nat)

/-- `(a + PAGE_SIZE - 1) & ~PAGE_MASK`. -/
def next_page (a : Nat) : Nat := page_start (F.add a (PAGE_SIZE - 1))

/-! ## Reading -/

/-- The tests of `getEntry`. -/
def supported (hdr : Elf_Ehdr) : Prop :=
  hdr.e_ident.take 4 = ELFMAG ∧ hdr.e_ident[4]? = some F.ELFCLASS ∧ hdr.e_ident[5]? = some 1 ∧
    (hdr.e_type = ET_EXEC ∨ hdr.e_type = ET_DYN) ∧ hdr.e_machine = F.EM

instance (hdr : Elf_Ehdr) : Decidable (F.supported hdr) := inferInstanceAs (Decidable (_ ∧ _))

/-- The header that is read, and the entry. -/
def getEntry (f : List UInt8) (is_dl : Bool) : Elf_Ehdr × Nat :=
  match read_at f 0 F.sizeof_Ehdr with
  | none => (no_header, 0)
  | some bytes =>
    let hdr := F.Ehdr bytes
    (hdr, if F.supported hdr then F.add hdr.e_entry (bias hdr is_dl) else 0)

def getSegment (f : List UInt8) (hdr : Elf_Ehdr) (idx : Nat) : Option Elf_Phdr :=
  if idx < hdr.e_phnum then
    (read_at f (F.add hdr.e_phoff (idx * hdr.e_phentsize)) F.sizeof_Phdr).map F.Phdr
  else none

def getSection (f : List UInt8) (hdr : Elf_Ehdr) (idx : Nat) : Option Elf_Shdr :=
  if idx < hdr.e_shnum then
    (read_at f (F.add hdr.e_shoff (idx * hdr.e_shentsize)) F.sizeof_Shdr).map F.Shdr
  else none

end elf_format

/-! ## Writing -/

/-- A header of a file without sections. -/
def elf64_header (e_type e_entry e_phoff e_phnum : Nat) : List UInt8 :=
  ELFMAG ++ ([2, 1, 1] ++ (List.replicate 9 0 ++ (le 2 e_type ++ (le 2 183 ++ (le 4 1 ++
    (le 8 e_entry ++ (le 8 e_phoff ++ (le 8 0 ++ (le 4 0 ++ (le 2 64 ++ (le 2 56 ++
      (le 2 e_phnum ++ (le 2 64 ++ (le 2 0 ++ le 2 0))))))))))))))

def elf64_segment (s : Elf_Phdr) : List UInt8 :=
  le 4 s.p_type ++ (le 4 s.p_flags ++ (le 8 s.p_offset ++ (le 8 s.p_vaddr ++ (le 8 s.p_vaddr ++
    (le 8 s.p_filesz ++ (le 8 s.p_memsz ++ le 8 PAGE_SIZE))))))

/-- `elfToMapProtection`. -/
structure protection where
  PROT_EXEC : Bool
  PROT_WRITE : Bool
  PROT_READ : Bool
  deriving DecidableEq, Repr

def elfToMapProtection (flags : Nat) : protection :=
  ⟨flags.testBit 0, flags.testBit 1, flags.testBit 2⟩

end Umeq.Loader
