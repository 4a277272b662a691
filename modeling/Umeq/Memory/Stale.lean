import Umeq.Memory.Cursor

/-! # Code that is mapped where other code was

    A translated block stays in the caches after its guest code has been unmapped. The
    emulator relies on the cursor: the areas it chooses do not come back before the end of
    the space is reached, and from then on `internal_mmap` cleans the caches for every
    executable area it places. It does neither for `MAP_FIXED`, and for a hint only the
    second.

    `history` records, beside the state of the code, what has become of the guest code at
    each address. A lookup in `remapped` may find a block of code that is gone.
-/

namespace Umeq.Memory

open Intervals

/-! ## What has become of the code -/

structure history where
  /-- A block was translated from here, and the mapping is still the same. -/
  translated : Nat → Prop
  /-- A block was translated from here, the mapping has ended, and the caches have not been
      cleaned since. -/
  stale : Nat → Prop
  /-- Executable areas over stale code, mapped since the caches were cleaned. -/
  remapped : Nat → Prop
  /-- Translated from above the cursor, before the end of the space was reached. -/
  high : Nat → Prop

def in_range (start n x : Nat) : Prop := start ≤ x ∧ x < start + n

/-- A block was translated from here. -/
def history.code (h : history) (x : Nat) : Prop := h.translated x ∨ h.stale x

def history.start : history where
  translated := fun _ => False
  stale := fun _ => False
  remapped := fun _ => False
  high := fun _ => False

/-- The mappings of some addresses end. -/
def history.ends (h : history) (ended : Nat → Prop) : history where
  translated := fun x => h.translated x ∧ ¬ ended x
  stale := fun x => h.stale x ∨ (h.translated x ∧ ended x)
  remapped := h.remapped
  high := h.high

/-- An executable area is mapped. -/
def history.maps (h : history) (start n : Nat) : history where
  translated := h.translated
  stale := h.stale
  remapped := fun pc => h.remapped pc ∨
    (in_range start n pc ∧ ∃ x, in_range start n x ∧ h.stale x)
  high := h.high

/-- `cleanCaches(0, ~0)`. -/
def history.clean (h : history) : history where
  translated := h.translated
  stale := fun _ => False
  remapped := fun _ => False
  high := h.high

/-- A block is translated from `length` bytes at `pc`, as far as they are mapped. -/
def history.translates (h : history) (w : world) (pc length : Nat) : history where
  translated := fun x => h.translated x ∨ (in_range pc length x ∧ w.host.mapped (x / PAGE_SIZE))
  stale := h.stale
  remapped := h.remapped
  high := fun x => h.high x ∨ (in_range pc length x ∧ w.vm.is_end_of_vm_reach = false ∧
    w.vm.kernel_cursor ≤ x)

/-! ## Runs -/

structure code_state where
  world : world
  history : history

/-- The calls of the guest, its own cache maintenance, and the loop: it looks a block up and
    translates it when it is not there. -/
inductive action where
  | mmap (addr_p length_p : Nat) (prot_exec map_fixed : Bool) (a : answer)
  | munmap (addr_p length_p : Nat) (a : answer)
  | mremap (old_addr_p old_size_p new_size_p : Nat) (maymove fixed : Bool) (new_addr_p : Nat)
      (a a' : answer)
  | refill (a : answer)
  | clean
  | lookup (pc : Nat)
  | translate (pc length : Nat)

/-- The addresses whose mapping a `munmap` ends. -/
def munmap_ended (addr_p length_p : Nat) (r : Except Nat Nat) (x : Nat) : Prop :=
  match r with
  | .error _ => False
  | .ok _ => in_range addr_p (PAGE_ALIGN_UP length_p) x

/-- A move ends the mappings at both places, an area that shrinks loses its end. -/
def mremap_ended (old_addr_p old_size_p new_size_p : Nat) (fixed : Bool) (r : Except Nat Nat)
    (x : Nat) : Prop :=
  match r with
  | .error _ => False
  | .ok start =>
    if fixed ∨ start ≠ old_addr_p then
      in_range old_addr_p (PAGE_ALIGN_UP old_size_p) x ∨ in_range start (PAGE_ALIGN_UP new_size_p) x
    else
      in_range (old_addr_p + PAGE_ALIGN_UP new_size_p)
        (PAGE_ALIGN_UP old_size_p - PAGE_ALIGN_UP new_size_p) x

/-- The mapping of a `mmap`. -/
def history.mmaps (h : history) (length_p : Nat) (prot_exec : Bool) (r : Except Nat Nat) : history :=
  match r with
  | .error _ => h
  | .ok start =>
    let h := h.ends (in_range start (PAGE_ALIGN_UP length_p))
    if prot_exec then h.maps start (PAGE_ALIGN_UP length_p) else h

/-- The history after a `mmap`: first the mapping, then the clean, if there is one. -/
def history.after_mmap (h : history) (w w' : world) (length_p : Nat) (prot_exec : Bool)
    (r : Except Nat Nat) : history :=
  let h := h.mmaps length_p prot_exec r
  if w'.vm.cache_cleans = w.vm.cache_cleans then h else h.clean

def action.exec (L : layout) (s : code_state) : action → Option code_state
  | .mmap addr_p length_p prot_exec map_fixed a => do
    let (w, r) ← internal_mmap L s.world addr_p length_p prot_exec map_fixed a
    some ⟨w, s.history.after_mmap s.world w length_p prot_exec r⟩
  | .munmap addr_p length_p a => do
    let (w, r) ← internal_munmap s.world addr_p length_p a
    some ⟨w, s.history.ends (munmap_ended addr_p length_p r)⟩
  | .mremap old_addr_p old_size_p new_size_p maymove fixed new_addr_p a a' => do
    let (w, r) ← internal_mremap L s.world old_addr_p old_size_p new_size_p maymove fixed new_addr_p a a'
    some ⟨w, s.history.ends (mremap_ended old_addr_p old_size_p new_size_p fixed r)⟩
  | .refill a => do
    let w ← allocate_more_desc_memory_if_needed L s.world a
    some { s with world := w }
  | .clean => some { s with history := s.history.clean }
  | .lookup _ => some s
  | .translate pc length => some { s with history := s.history.translates s.world pc length }

/-- The actions from the state `mmap_init` leaves, with no block translated. -/
def code_runs (L : layout) : Runs.System code_state action where
  init := ⟨(address_space L).init, .start⟩
  exec := fun s act => act.exec L s

/-- No lookup for an address where an executable area has replaced code that was translated,
    unless the caches were cleaned between the end of the old mapping and the lookup. -/
def action.fresh (s : code_state) : action → Prop
  | .lookup pc => ¬ s.history.remapped pc
  | _ => True

/-- Where an executable area may go while the caches are not cleaned for it. -/
def exec_placed (s : code_state) (addr_p length_p : Nat) (map_fixed : Bool) (a : answer) : Prop :=
  if addr_p ≠ 0 ∧ map_fixed then
    ∀ r, (mmap_syscall s.world.host a addr_p length_p).2 = .ok r →
      ∀ x, in_range addr_p (PAGE_ALIGN_UP length_p) x → ¬ s.history.code x
  else if s.world.vm.is_end_of_vm_reach then True
  else if addr_p = 0 then
    ∀ x, s.history.code x → s.history.high x → x < s.world.vm.kernel_cursor
  else
    (hint_fits s.world.vm length_p addr_p →
      ∀ x, in_range (PAGE_ALIGN_DOWN addr_p) (PAGE_ALIGN_UP length_p) x → ¬ s.history.code x) ∧
    (¬ hint_fits s.world.vm length_p addr_p →
      ∀ x, s.history.code x → typeAt s.world.vm.vma_list x ≠ some .VMA_UNMAP)

/-- No executable area is mapped over code that was translated, where the emulator does not
    look after it. -/
def action.placed (s : code_state) : action → Prop
  | .mmap addr_p length_p prot_exec map_fixed a =>
    mmap_unwrapped addr_p length_p map_fixed ∧
      (prot_exec = true → exec_placed s addr_p length_p map_fixed a)
  | _ => True

/-! ## Every lookup is fresh -/

/-- Until the end of the space is reached, code lies below the cursor unless it was translated
    from above it. -/
structure Guarded (s : code_state) : Prop where
  orderly : Orderly s.world.vm.vma_list
  none_remapped : ∀ pc, ¬ s.history.remapped pc
  below : s.world.vm.is_end_of_vm_reach = false →
    ∀ x, s.history.code x → ¬ s.history.high x → x < s.world.vm.kernel_cursor

section guarded

variable {T : target} {s : code_state} {w : world} {h : history} {addr length : Nat}
  {prot_exec fixed : Bool} {a : answer} {r : Except Nat Nat}

theorem code_ends (h : history) (ended : Nat → Prop) (x : Nat) :
    (h.ends ended).code x ↔ h.code x := by
  unfold history.ends history.code
  constructor
  · rintro (⟨ht, -⟩ | hs | ⟨ht, -⟩)
    · exact .inl ht
    · exact .inr hs
    · exact .inl ht
  · rintro (ht | hs)
    · by_cases he : ended x
      · exact .inr (.inr ⟨ht, he⟩)
      · exact .inl ⟨ht, he⟩
    · exact .inr (.inl hs)

/-- A step that translates nothing. -/
theorem Guarded.step (hs : Guarded s) (ho : Orderly w.vm.vma_list) (ha : Ahead s.world.vm w.vm)
    (hr : ∀ pc, ¬ h.remapped pc) (hc : ∀ x, h.code x → s.history.code x)
    (hh : h.high = s.history.high) : Guarded ⟨w, h⟩ := by
  refine ⟨ho, hr, ?_⟩
  intro hend x hx hnot
  rcases ha with hreach | ⟨hend', hle⟩
  · rw [hend] at hreach
    cases hreach
  · have hlt := hs.below hend' x (hc x hx) (hh ▸ hnot)
    exact Nat.lt_of_lt_of_le hlt hle

/-- The area of an executable `mmap` after which the caches are not cleaned holds no code. -/
theorem placed_free (hs : Guarded s) (hp : exec_placed s addr length fixed a)
    (hwrap : mmap_unwrapped addr length fixed) {start : Nat}
    (hcall : internal_mmap T.layout s.world addr length true fixed a = some (w, .ok start))
    (hclean : w.vm.cache_cleans = s.world.vm.cache_cleans) (x : Nat)
    (hx : in_range start (PAGE_ALIGN_UP length) x) : ¬ s.history.code x := by
  have hmapped := mmap_mapped hs.orderly hwrap hcall
  unfold exec_placed at hp
  rcases hmapped.area start rfl rfl with ⟨h0, hf, rfl, -⟩ | hone | ⟨hnot, hend, -, hrange, hzero, hhint⟩
  · -- a fixed address: the host has accepted it
    rw [if_pos ⟨h0, hf⟩] at hp
    refine hp start ?_ x hx
    unfold internal_mmap at hcall
    rw [if_pos ⟨h0, hf⟩] at hcall
    rcases hsys : mmap_syscall s.world.host a start length with ⟨host, errno | y⟩ <;>
      simp only [hsys] at hcall
    · cases (Prod.mk.inj (Option.some.inj hcall)).2
    · obtain ⟨vm, -, hcall⟩ := Option.bind_eq_some_iff.mp hcall
      exact (Prod.mk.inj (Option.some.inj hcall)).2
  · omega
  · -- the end of the space was not reached before either
    have hflag : s.world.vm.is_end_of_vm_reach = false := by
      rcases hmapped.ahead with hreach | ⟨hflag, -⟩
      · rw [hend] at hreach
        cases hreach
      · exact hflag
    rw [if_neg hnot, hflag, if_neg (by simp)] at hp
    intro hcode
    by_cases h0 : addr = 0
    · rw [if_pos h0] at hp
      have hle := hzero h0
      have hlt : x < s.world.vm.kernel_cursor := by
        by_cases hhigh : s.history.high x
        · exact hp x hcode hhigh
        · exact hs.below hflag x hcode hhigh
      have := hx.1
      omega
    · rw [if_neg h0] at hp
      obtain ⟨hsome, hstart⟩ := hhint h0
      obtain ⟨q, hq⟩ := Option.ne_none_iff_exists'.mp hsome
      have hstart := hstart q hq
      by_cases hfits : hint_fits s.world.vm length addr
      · rw [hint_request_fits hs.orderly.ordered hfits] at hq
        obtain rfl := Option.some.inj hq
        rw [hstart] at hx
        exact hp.1 hfits x hx hcode
      · exact hp.2 hfits x hcode (hrange.free hs.orderly.ordered hx.1 hx.2)

theorem mmaps_code (h : history) (x : Nat) : (h.mmaps length prot_exec r).code x ↔ h.code x := by
  cases r with
  | error errno => exact Iff.rfl
  | ok start => cases prot_exec <;> exact code_ends h _ x

theorem after_mmap_code (h : history) (w w' : world) (x : Nat)
    (hx : (h.after_mmap w w' length prot_exec r).code x) : h.code x := by
  rw [← @mmaps_code length prot_exec r]
  unfold history.after_mmap at hx
  dsimp only at hx
  split_ifs at hx
  · exact hx
  · rcases hx with hx | hx
    · exact .inl hx
    · cases hx

theorem after_mmap_high (h : history) (w w' : world) :
    (h.after_mmap w w' length prot_exec r).high = h.high := by
  have hmmaps : (h.mmaps length prot_exec r).high = h.high := by
    cases r with
    | error errno => rfl
    | ok start => cases prot_exec <;> rfl
  unfold history.after_mmap
  dsimp only
  split_ifs <;> exact hmmaps

theorem mmap_guarded (hs : Guarded s) (hwrap : mmap_unwrapped addr length fixed)
    (hp : prot_exec = true → exec_placed s addr length fixed a)
    (hcall : internal_mmap T.layout s.world addr length prot_exec fixed a = some (w, r)) :
    Guarded ⟨w, s.history.after_mmap s.world w length prot_exec r⟩ := by
  refine hs.step (mmap_orderly hs.orderly hcall) (mmap_mapped hs.orderly hwrap hcall).ahead ?_
    (fun x hx => after_mmap_code _ _ _ x hx) (after_mmap_high _ _ _)
  intro pc hpc
  unfold history.after_mmap at hpc
  dsimp only at hpc
  split_ifs at hpc with hclean
  · cases r with
    | error errno => exact hs.none_remapped pc hpc
    | ok start =>
      cases prot_exec with
      | false => exact hs.none_remapped pc hpc
      | true =>
        rcases hpc with hpc | ⟨-, x, hx, hstale⟩
        · exact hs.none_remapped pc hpc
        · refine placed_free hs (hp rfl) hwrap hcall hclean x hx ?_
          exact (code_ends _ _ x).mp (.inr hstale)
  · exact hpc

end guarded

/-- One action. -/
theorem action_guarded {T : target} {s s' : code_state} {act : action} (hs : Guarded s)
    (hp : act.placed s) (hexec : act.exec T.layout s = some s') : Guarded s' := by
  cases act with
  | mmap addr_p length_p prot_exec map_fixed a =>
    obtain ⟨⟨w, r⟩, hcall, hexec⟩ := Option.bind_eq_some_iff.mp hexec
    obtain rfl := Option.some.inj hexec
    exact mmap_guarded hs hp.1 hp.2 hcall
  | munmap addr_p length_p a =>
    obtain ⟨⟨w, r⟩, hcall, hexec⟩ := Option.bind_eq_some_iff.mp hexec
    obtain rfl := Option.some.inj hexec
    obtain ⟨ho, hrest⟩ := munmap_kept hs.orderly hcall
    exact hs.step ho hrest.ahead hs.none_remapped (fun x => (code_ends _ _ x).mp) rfl
  | mremap old_addr_p old_size_p new_size_p maymove fixed new_addr_p a a' =>
    obtain ⟨⟨w, r⟩, hcall, hexec⟩ := Option.bind_eq_some_iff.mp hexec
    obtain rfl := Option.some.inj hexec
    obtain ⟨ho, hahead, -⟩ := mremap_kept hs.orderly hcall
    exact hs.step ho hahead hs.none_remapped (fun x => (code_ends _ _ x).mp) rfl
  | refill a =>
    obtain ⟨w, hcall, hexec⟩ := Option.bind_eq_some_iff.mp hexec
    obtain rfl := Option.some.inj hexec
    unfold allocate_more_desc_memory_if_needed at hcall
    split_ifs at hcall
    · obtain rfl := Option.some.inj hcall
      exact hs
    · obtain ⟨⟨v, errno | x⟩, hmmap, hv⟩ := Option.bind_eq_some_iff.mp hcall
      · cases hv
      · obtain rfl := Option.some.inj hv
        have hwrap : mmap_unwrapped 0 PAGE_SIZE false := fun _ => by decide
        have ho := mmap_orderly hs.orderly hmmap
        have hahead := (mmap_mapped hs.orderly hwrap hmmap).ahead
        exact hs.step ho hahead hs.none_remapped (fun _ hx => hx) rfl
  | clean =>
    obtain rfl := Option.some.inj hexec
    refine hs.step hs.orderly (SameRest.refl _).ahead (fun _ hpc => hpc) ?_ rfl
    rintro x (hx | hx)
    · exact .inl hx
    · cases hx
  | lookup pc =>
    obtain rfl := Option.some.inj hexec
    exact hs
  | translate pc length =>
    obtain rfl := Option.some.inj hexec
    refine ⟨hs.orderly, hs.none_remapped, ?_⟩
    intro hend x hx hnot
    rcases hx with (hx | ⟨hx, -⟩) | hx
    · exact hs.below hend x (.inl hx) fun hhigh => hnot (.inl hhigh)
    · -- translated now: above the cursor it would be marked
      by_contra hge
      exact hnot (.inr ⟨hx, hend, Nat.le_of_not_lt hge⟩)
    · exact hs.below hend x (.inr hx) fun hhigh => hnot (.inl hhigh)

theorem init_guarded (T : target) : Guarded (code_runs T.layout).init := by
  have hinit := init_in_step T
  refine ⟨⟨hinit.ordered, hinit.limit⟩, fun _ hpc => hpc, ?_⟩
  rintro - x (hx | hx)
  · cases hx
  · cases hx

/-- In every run that puts executable areas where the emulator looks after them, no lookup can
    find a block of code that is gone. -/
theorem lookups_fresh (T : target) (s : code_state) (act : action)
    (h : (code_runs T.layout).Reach (fun s act => act.placed s) s) : act.fresh s := by
  have hs : Guarded s := by
    refine h.invariant (init_guarded T) ?_
    intro s act s' hs hp hexec
    exact action_guarded hs hp hexec
  cases act with
  | lookup pc => exact hs.none_remapped pc
  | _ => trivial

/-- A page of code that the emulator places. -/
def map_code : action := .mmap 0 0x1000 true false .accepts

/-- Its first block. -/
def first_block : action := .translate 0x4000000000 4

def unmap_code : action := .munmap 0x4000000000 0x1000 .accepts

/-- Other code at the same place. -/
def map_code_fixed : action := .mmap 0x4000000000 0x1000 true true .accepts

/-- The next page of code goes above the first one, and its lookup is fresh. -/
theorem map_code_twice_fresh : ∃ s, (code_runs arm64_layout).run (code_runs arm64_layout).init
      [map_code, first_block, unmap_code, map_code] = some s ∧
    s.history.stale 0x4000000000 ∧ (action.lookup 0x4000010000).fresh s := by
  obtain ⟨s, hreach, hrun, hstale⟩ : ∃ s,
      (code_runs arm64_layout).Reach (fun s act => act.placed s) s ∧
      (code_runs arm64_layout).run (code_runs arm64_layout).init
        [map_code, first_block, unmap_code, map_code] = some s ∧
      s.history.stale 0x4000000000 := by
    refine ⟨_, .step (l := map_code) (.step (l := unmap_code) (.step (l := first_block)
      (.step (l := map_code) .init ?_ rfl) ?_ rfl) ?_ rfl) ?_ rfl, rfl, ?_⟩
    · refine ⟨fun _ => by decide, fun _ x hx => ?_⟩
      rcases hx with hx | hx <;> cases hx
    · trivial
    · trivial
    · refine ⟨fun _ => by decide, fun _ x _ hhigh => ?_⟩
      -- the cursor was above the block when it was translated
      rcases hhigh with hhigh | ⟨hx, -, -⟩
      · cases hhigh
      · exact Nat.lt_of_lt_of_le hx.2 (by decide)
    · exact .inl (.inr ⟨.inr ⟨⟨by decide, by decide⟩, by decide⟩, by decide, by decide⟩)
  exact ⟨s, hrun, hstale, lookups_fresh .arm64 s _ hreach⟩

/-- Code is mapped, translated, unmapped, and replaced by other code with `MAP_FIXED`. The
    caches are not cleaned, and the next lookup is not fresh. -/
theorem map_code_fixed_stale : ∃ s, (code_runs arm64_layout).run (code_runs arm64_layout).init
      [map_code, first_block, unmap_code, map_code_fixed] = some s ∧
    s.world.vm.cache_cleans = 0 ∧ ¬ (action.lookup 0x4000000000).fresh s := by
  refine ⟨_, rfl, rfl, ?_⟩
  intro h
  refine h (.inr ⟨⟨by decide, by decide⟩, 0x4000000000, ⟨by decide, by decide⟩, ?_⟩)
  exact .inl (.inr ⟨.inr ⟨⟨by decide, by decide⟩, by decide⟩, by decide, by decide⟩)

end Umeq.Memory
