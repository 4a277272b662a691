import Umeq.Cache.Log

/-! # The main loop and block linking

    `loop_common` looks the current guest pc up in the cache, translates the
    block when it is not there, and executes it. When the block it has just
    translated follows a block that left by an exit with a constant value, that
    exit is patched to jump to the new block, so that later executions go from
    one block to the next without coming back to the loop.

    The guest is a parameter: `γ` is everything a block reads and writes, the
    guest context and memory. A translation says what its code does to it and by
    which exit it leaves. The links themselves are bytes of the cache area, read
    and written where `gen_exit` has put them. The list `live` and the log of
    actions are ghosts.
-/

namespace Umeq.Loop

open Bytes Umeq.Cache

variable {γ : Type}

/-! ## Translated blocks -/

/-- An exit whose value is a constant. `gen_exit` puts at `offset` the `retq` that
    `link_patch_area` points to, then `mov rax, imm64` and `jmp rax`. -/
structure slot where
  offset : Nat
  value : Nat
  deriving DecidableEq, Repr

/-- The bytes of an exit that `patch` and the jump rely on. -/
def slot.in_code (s : slot) (code : List UInt8) : Prop :=
  code[s.offset]? = some 0xc3 ∧ code[s.offset + 1]? = some 0x48 ∧
  code[s.offset + 2]? = some 0xb8 ∧ code[s.offset + 11]? = some 0xff ∧
  code[s.offset + 12]? = some 0xe0

/-- How a block is left: by one of its patchable exits, or by an exit whose value
    is only known at run time. -/
inductive leave where
  | through (k : Nat)
  | out (value : Nat)
  deriving DecidableEq, Repr

/-- What running a block does. `clean` tells that a helper has called
    `cleanCaches`. -/
structure outcome (γ : Type) where
  guest : γ
  clean : Bool
  leave : leave

/-- The size of `jitBuffer` in `loop_common`. -/
def JIT_BUFFER_SIZE : Nat := 16 * 1024

/-- What `disassemble` and `jitCode` give for a block. -/
structure translation (γ : Type) where
  code : List UInt8
  slots : List slot
  run : γ → outcome γ
  size : code.length ≤ JIT_BUFFER_SIZE
  in_code : ∀ s ∈ slots, s.in_code code
  apart : slots.Pairwise fun s s' => s.offset + 13 ≤ s'.offset ∨ s'.offset + 13 ≤ s.offset
  value_lt : ∀ s ∈ slots, s.value < 2 ^ 64
  leaves : ∀ g, match (run g).leave with
    | .through k => k < slots.length
    | .out value => value < 2 ^ 64

/-- A block of the cache. -/
structure block (γ : Type) where
  pc : Nat
  ptr : Nat
  tr : translation γ

/-- The guest side of the loop. -/
structure target (γ : Type) where
  isLooping : γ → Bool
  disassemble : γ → Nat → translation γ × γ

/-! ## Executing blocks -/

/-- What is seen of a run: the test of `isLooping`, the clean made by a lookup, the
    entry of a block, and the requests a block makes of the loop. -/
inductive action (γ : Type) where
  | check
  | cleaned
  | enter (pc : Nat) (guest : γ)
  | clean_request
  | stop_request

/-- The requests a block has made. -/
def requests (T : target γ) (o : outcome γ) : List (action γ) :=
  (if o.clean then [.clean_request] else []) ++ (if T.isLooping o.guest then [] else [.stop_request])

/-- The bytes at an exit: `none` where it returns, the target where it was patched.
    Anything else is not code of an exit. -/
def leave_slot (m : Mem) (a : Nat) : Option (Option Nat) :=
  if m a = 0xc3 then some none
  else if m a = 0x90 ∧ m (a + 1) = 0x48 ∧ m (a + 2) = 0xb8 ∧ m (a + 11) = 0xff ∧
      m (a + 12) = 0xe0 then some (some (m.load (a + 3) 8))
  else none

/-- `struct backend_execute_result`, with the guest and the ghost log. -/
structure execute_result (γ : Type) where
  guest : γ
  clean : Bool
  result : Nat
  link_patch_area : Nat
  log : List (action γ)

/-- `execute`: run the block at `ptr` and those it jumps to. The bound is on the
    number of blocks. -/
def execute (T : target γ) (live : List (block γ)) (m : Mem) :
    Nat → Nat → γ → Option (execute_result γ)
  | 0, _, _ => none
  | fuel + 1, ptr, g => do
    let b ← live.find? (fun b => b.ptr = ptr)
    let o := b.tr.run g
    let log := .enter b.pc g :: requests T o
    match o.leave with
    | .out value => some ⟨o.guest, o.clean, value, 0, log⟩
    | .through k => do
      let s ← b.tr.slots[k]?
      match ← leave_slot m (b.ptr + s.offset) with
      | none => some ⟨o.guest, o.clean, s.value, b.ptr + s.offset, log⟩
      | some next => do
        let r ← execute T live m fuel next o.guest
        some { r with clean := o.clean || r.clean, log := log ++ r.log }

/-- `patch`: turn the `retq` into a `nop` and fill in the target of the jump. The
    failed assert is `none`. -/
def patch (m : Mem) (link_patch_area cache_area : Nat) : Option Mem :=
  if m link_patch_area = 0xc3 then
    some ((m.write link_patch_area [0x90]).store (link_patch_area + 3) 8 cache_area)
  else none

/-! ## The loop -/

structure loop_state (γ : Type) where
  guest : γ
  cache : internal_cache
  is_cache_clean_need : Bool
  currentPc : Nat
  prevCurrentPc : Nat
  /-- `result.link_patch_area`. -/
  link_patch_area : Nat
  /-- The blocks appended since the last reset, the last one first. -/
  live : List (block γ)
  /-- The exits patched since the last reset. -/
  linked : List Nat
  log : List (action γ)

/-- The part of an iteration that follows the choice of the block: `execute`, and
    what the loop keeps of its result. -/
def run_block (T : target γ) (s : loop_state γ) (cache_area : Nat) : Option (loop_state γ) := do
  let r ← execute T s.live s.cache.mem s.live.length cache_area s.guest
  some { s with
    guest := r.guest
    is_cache_clean_need := s.is_cache_clean_need || r.clean
    currentPc := r.result
    prevCurrentPc := s.currentPc
    link_patch_area := r.link_patch_area
    log := s.log ++ r.log }

/-- The lookup of the loop, with the clean request it may have to handle. -/
def lookup_block (s : loop_state γ) : Option (loop_state γ × result) := do
  let c := if s.is_cache_clean_need then ll_clean_cache s.cache else s.cache
  let (c, res) ← lookup c s.currentPc
  some ({ s with
    cache := c
    is_cache_clean_need := false
    live := if res.cache_clean_event then [] else s.live
    linked := if res.cache_clean_event then [] else s.linked
    log := s.log ++ if res.cache_clean_event then [.cleaned] else [] }, res)

/-- Translate the block at `currentPc` and append it. The failed assert on
    `jitSize` is `none`. -/
def append_block (T : target γ) (s : loop_state γ) : Option (loop_state γ × result) :=
  let (tr, g) := T.disassemble s.guest s.currentPc
  if tr.code = [] then none
  else
    let (c, res) := append s.cache s.currentPc tr.code
    some ({ s with
      guest := g
      cache := c
      live := ⟨s.currentPc, res.ptr, tr⟩ :: if res.cache_clean_event then [] else s.live
      linked := if res.cache_clean_event then [] else s.linked }, res)

/-- The link from the last exit to the block just appended. With `links` off the
    loop never calls `patch`. -/
def link_block (links : Bool) (s : loop_state γ) (is_cache_was_cleaned : Bool)
    (cache_area : Nat) : Option (loop_state γ) :=
  if links ∧ s.prevCurrentPc < s.currentPc ∧ s.link_patch_area ≠ 0 ∧
      is_cache_was_cleaned = false then do
    let m ← patch s.cache.mem s.link_patch_area cache_area
    some { s with cache := { s.cache with mem := m }, linked := s.link_patch_area :: s.linked }
  else some s

/-- The branch of the loop for a block that the cache does not have. -/
def new_block (T : target γ) (links : Bool) (s : loop_state γ) (is_cache_was_cleaned : Bool) :
    Option (loop_state γ × Nat) := do
  let (s, res) ← append_block T s
  let s ← link_block links s (is_cache_was_cleaned || res.cache_clean_event) res.ptr
  some (s, res.ptr)

/-- The block to execute next: the one the cache has for `currentPc`, or a new one. -/
def find_block (T : target γ) (links : Bool) (s : loop_state γ) :
    Option (loop_state γ × Nat) := do
  let (s, res) ← lookup_block s
  if res.ptr ≠ 0 then some (s, res.ptr) else new_block T links s res.cache_clean_event

/-- One round of the `while` of `loop_common`. -/
def iterate (T : target γ) (links : Bool) (s : loop_state γ) : Option (loop_state γ) :=
  if T.isLooping s.guest then do
    let (s, cache_area) ← find_block T links { s with log := s.log ++ [.check] }
    run_block T s cache_area
  else none

/-- `loop_common` on a cache that `createCache` has just made. -/
def loop_common (T : target γ) (links : Bool) (entry : Nat) (g : γ) (memory size : Nat)
    (contents : Mem) : Runs.System (loop_state γ) Unit where
  init :=
    { guest := g
      cache := reset (init_acache memory size contents)
      is_cache_clean_need := false
      currentPc := entry
      prevCurrentPc := 2 ^ 64 - 1
      link_patch_area := 0
      live := []
      linked := []
      log := [] }
  exec := fun s _ => iterate T links s

end Umeq.Loop
