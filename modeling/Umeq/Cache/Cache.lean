import Umeq.Lib.Bytes
import Umeq.Lib.Runs

/-! # The translation cache of `cache.c`

    A cache is a block of memory: a header with two tables of pointers, and the
    area in which the translation blocks follow one another. A block starts with
    a `struct tb` of 18 packed bytes (size, guest pc, next block with the same
    hash) and goes on with the host code.

    Pointers are addresses and the null pointer is 0. The blocks are read and
    written in a byte memory, as the code does, so that nothing but the proofs
    keeps one block from overwriting another. The caches are known by the
    address of their memory, and `root` is the linked list of those registered.
-/

namespace Umeq.Cache

open Bytes

def HASH_ENTRY_NB : Nat := 2 ^ 14

/-- `sizeof(struct tb)`: the structure is packed. -/
def sizeof_tb : Nat := 18

/-- `sizeof(struct internal_cache)`. -/
def sizeof_internal_cache : Nat := 48 + 2 * HASH_ENTRY_NB * 8 + 16

def MIN_CACHE_SIZE : Nat := 1024 * 1024

/-- `struct internal_cache`, without its link and its function pointers. -/
structure internal_cache where
  jitter_area_size : Nat
  write_pos : Nat
  clean : Bool
  cached : Nat → Nat
  list : Nat → Nat
  area : Nat
  /-- The bytes of the area, by address. -/
  mem : Mem
  /-- Ghost: how many times `reset` has run. The code does not have it. -/
  resets : Nat

def hash_pc (pc : Nat) : Nat := pc / 4 % HASH_ENTRY_NB

/-- The fields of the `struct tb` at an address. -/
def tb_guest_pc (m : Mem) (tb : Nat) : Nat := m.load (tb + 2) 8

def tb_next_in_hash_list (m : Mem) (tb : Nat) : Nat := m.load (tb + 10) 8

def tb_to_jit_area (tb : Nat) : Nat := tb + sizeof_tb

def reset (c : internal_cache) : internal_cache :=
  { c with write_pos := 0, clean := false, cached := fun _ => 0, list := fun _ => 0,
           resets := c.resets + 1 }

/-- What a call gives back: the pointer (0 when there is none) and whether it set
    `*cache_clean_event`. -/
structure result where
  ptr : Nat
  cache_clean_event : Bool
  deriving DecidableEq, Repr

/-- The `while(current)` loop of `lookup`: the block found, 0 at the end of the
    chain, `none` when the bound on the rounds is too small. -/
def search (m : Mem) (pc : Nat) : Nat → Nat → Option Nat
  | 0, _ => none
  | fuel + 1, current =>
    if current = 0 then some 0
    else if tb_guest_pc m current = pc then some current
    else search m pc fuel (tb_next_in_hash_list m current)

/-- `lookup` once the global clean request has been handled. -/
def lookup (c : internal_cache) (pc : Nat) : Option (internal_cache × result) :=
  let hash := hash_pc pc
  if c.clean then some (reset c, ⟨0, true⟩)
  else
    let current := c.cached hash
    if current ≠ 0 ∧ tb_guest_pc c.mem current = pc then
      some (c, ⟨tb_to_jit_area current, false⟩)
    else do
      -- a block takes at least one byte, so `write_pos` bounds the chain
      let current ← search c.mem pc (c.write_pos + 1) (c.list hash)
      if current = 0 then some (c, ⟨0, false⟩)
      else some ({ c with cached := Function.update c.cached hash current },
        ⟨tb_to_jit_area current, false⟩)

/-- The area is too full for `size` more bytes of code. -/
def area_full (c : internal_cache) (size : Nat) : Prop :=
  c.write_pos + size + sizeof_tb > c.jitter_area_size

instance (c : internal_cache) (size : Nat) : Decidable (area_full c size) :=
  inferInstanceAs (Decidable (_ > _))

/-- The bytes of a block: its `struct tb`, then the code. -/
def tb_bytes (pc next : Nat) (data : List UInt8) : List UInt8 :=
  le 2 (data.length + sizeof_tb) ++ le 8 pc ++ le 8 next ++ data

/-- The second half of `append`: set up the new block at `write_pos`. -/
def setup_tb (c : internal_cache) (pc : Nat) (data : List UInt8) : internal_cache :=
  let hash := hash_pc pc
  let new_tb := c.area + c.write_pos
  { c with
    mem := c.mem.write new_tb (tb_bytes pc (c.list hash) data)
    list := Function.update c.list hash new_tb
    write_pos := c.write_pos + data.length + sizeof_tb }

/-- `append`. -/
def append (c : internal_cache) (pc : Nat) (data : List UInt8) : internal_cache × result :=
  let full := area_full c data.length
  let c := if full then reset c else c
  (setup_tb c pc data, ⟨tb_to_jit_area (c.area + c.write_pos), decide full⟩)

/-! ## The caches of a process -/

/-- The globals of `cache.c` and the memory of each cache. -/
structure caches where
  cache : Nat → Option internal_cache
  root : List Nat
  is_cache_clean_need : Bool

def ll_clean_cache (c : internal_cache) : internal_cache := { c with clean := true }

def ll_clean_caches (w : caches) : caches :=
  { w with cache := fun m => if m ∈ w.root then (w.cache m).map ll_clean_cache else w.cache m }

/-- The fields `createCache` sets before its `reset`. -/
def init_acache (memory size : Nat) (contents : Mem) : internal_cache where
  jitter_area_size := size - sizeof_internal_cache
  write_pos := 0
  clean := false
  cached := fun _ => 0
  list := fun _ => 0
  area := memory + sizeof_internal_cache
  mem := contents
  resets := 0

/-- `createCache`, on memory that no registered cache uses. -/
def createCache (w : caches) (memory size : Nat) (contents : Mem) : Option caches :=
  if memory ≠ 0 ∧ size ≥ MIN_CACHE_SIZE ∧ memory ∉ w.root then
    some { w with
      cache := Function.update w.cache memory (some (reset (init_acache memory size contents)))
      root := memory :: w.root }
  else none

/-- `removeCache`; the assert is that the cache is registered. -/
def removeCache (w : caches) (memory : Nat) : Option caches :=
  if memory ∈ w.root then some { w with root := w.root.erase memory } else none

def cleanCaches (w : caches) : caches := { w with is_cache_clean_need := true }

/-- The start of `lookup`: a clean request is handed to every registered cache. -/
def handle_clean (w : caches) : caches :=
  if w.is_cache_clean_need then { ll_clean_caches w with is_cache_clean_need := false } else w

/-- One call of the interface. The contents of the memory given to `createCache`
    are whatever was there. -/
inductive call where
  | createCache (memory size : Nat) (contents : Mem)
  | lookup (cache pc : Nat)
  | append (cache pc : Nat) (data : List UInt8)
  | removeCache (cache : Nat)
  | cleanCaches

def call.exec (w : caches) : call → Option (caches × result)
  | .createCache memory size contents => do
    some (← Cache.createCache w memory size contents, ⟨memory, false⟩)
  | .lookup cache pc => do
    let w := handle_clean w
    let (c, res) ← Cache.lookup (← w.cache cache) pc
    some ({ w with cache := Function.update w.cache cache (some c) }, res)
  | .append cache pc data => do
    let (c, res) := Cache.append (← w.cache cache) pc data
    some ({ w with cache := Function.update w.cache cache (some c) }, res)
  | .removeCache cache => do some (← Cache.removeCache w cache, ⟨0, false⟩)
  | .cleanCaches => some (Cache.cleanCaches w, ⟨0, false⟩)

end Umeq.Cache
