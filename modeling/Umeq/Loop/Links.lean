import Umeq.Loop.Loop
import Mathlib.Data.List.Pairwise

/-! # Links between live blocks

    A patched exit was left once, unpatched, by a block that was in the cache, and
    then the block it links to was appended. So a link always goes to a block
    appended later, which lies higher in the area: this, and not the comparison
    of guest pcs in the loop, is why the links have no cycle.
-/

namespace Umeq.Loop

open Bytes Umeq.Cache

variable {γ : Type}

/-! ## The state of the exits -/

/-- The log of the cache: the blocks with the bytes their code has now. -/
def logOf (m : Mem) (live : List (block γ)) : List entry :=
  live.map fun b => ⟨b.pc, b.ptr, m.read b.ptr b.tr.code.length⟩

/-- An exit returns, or jumps to a live block higher up whose guest pc is the value
    of the exit. -/
def SlotOk (m : Mem) (live : List (block γ)) (b : block γ) (k : slot) : Prop :=
  let a := b.ptr + k.offset
  m (a + 1) = 0x48 ∧ m (a + 2) = 0xb8 ∧ m (a + 11) = 0xff ∧ m (a + 12) = 0xe0 ∧
  (m a = 0xc3 ∨ m a = 0x90 ∧ ∃ b' ∈ live, b.ptr < b'.ptr ∧ m.load (a + 3) 8 = b'.ptr ∧
    b'.pc = k.value)

/-- What holds of the cache of the loop between any two of its operations. -/
structure Sound (s : loop_state γ) : Prop where
  represents : Represents s.cache (logOf s.cache.mem s.live)
  exits : ∀ b ∈ s.live, ∀ k ∈ b.tr.slots, SlotOk s.cache.mem s.live b k
  pcs : s.live.Pairwise fun b b' => b.pc ≠ b'.pc
  nonempty : ∀ b ∈ s.live, 0 < b.tr.code.length
  room : JIT_BUFFER_SIZE + sizeof_tb ≤ s.cache.jitter_area_size
  currentPc_lt : s.currentPc < 2 ^ 64
  linked : ∀ b ∈ s.live, ∀ k ∈ b.tr.slots,
    (s.cache.mem (b.ptr + k.offset) = 0x90 ↔ b.ptr + k.offset ∈ s.linked)
  linked_lt : ∀ a ∈ s.linked, a < s.cache.area + s.cache.write_pos

/-- `link_patch_area` is the unpatched exit whose value is the current pc. -/
def LinkOk (s : loop_state γ) : Prop :=
  s.link_patch_area ≠ 0 → ∃ b ∈ s.live, ∃ k ∈ b.tr.slots,
    s.link_patch_area = b.ptr + k.offset ∧ k.value = s.currentPc ∧
    s.cache.mem s.link_patch_area = 0xc3

/-! ## Where blocks and exits lie -/

section places

variable {c : internal_cache} {live : List (block γ)}

/-- Two live blocks are the same or do not overlap. -/
theorem blocks_apart (h : Represents c (logOf c.mem live)) {b b' : block γ} (hb : b ∈ live)
    (hb' : b' ∈ live) : b = b' ∨ b.ptr + b.tr.code.length + sizeof_tb ≤ b'.ptr ∨
      b'.ptr + b'.tr.code.length + sizeof_tb ≤ b.ptr := by
  let R : block γ → block γ → Prop := fun b b' => b.ptr + b.tr.code.length + sizeof_tb ≤ b'.ptr ∨
    b'.ptr + b'.tr.code.length + sizeof_tb ≤ b.ptr
  have : Std.Symm R := ⟨fun _ _ h => h.symm⟩
  have hsep : live.Pairwise R := by
    have := h.stacked.apart
    rw [logOf, List.pairwise_map] at this
    refine this.imp_of_mem fun {x y} hx hy hxy => .inr ?_
    have hbx := h.stacked.bounds _ (List.mem_map_of_mem hx)
    simp only [entry.tb, Mem.length_read] at hxy hbx
    omega
  by_cases heq : b = b'
  · exact .inl heq
  · exact .inr (hsep.forall hb hb' heq)

/-- Where a live block lies. -/
theorem block_bounds (h : Represents c (logOf c.mem live)) {b : block γ} (hb : b ∈ live) :
    c.area + sizeof_tb ≤ b.ptr ∧ b.ptr + b.tr.code.length ≤ c.area + c.write_pos := by
  have := h.stacked.bounds _ (List.mem_map_of_mem hb)
  simpa using this

theorem slot_bounds {b : block γ} {k : slot} (hk : k ∈ b.tr.slots) :
    k.offset + 13 ≤ b.tr.code.length := by
  obtain ⟨-, -, -, -, h⟩ := b.tr.in_code k hk
  have := (List.getElem?_eq_some_iff.mp h).1
  omega

/-- Two exits of live blocks are the same or do not overlap. -/
theorem exits_apart (h : Represents c (logOf c.mem live)) {b b' : block γ} {k k' : slot}
    (hb : b ∈ live) (hb' : b' ∈ live) (hk : k ∈ b.tr.slots) (hk' : k' ∈ b'.tr.slots) :
    (b = b' ∧ k = k') ∨ b.ptr + k.offset + 13 ≤ b'.ptr + k'.offset ∨
      b'.ptr + k'.offset + 13 ≤ b.ptr + k.offset := by
  have hin := slot_bounds hk
  have hin' := slot_bounds hk'
  rcases blocks_apart h hb hb' with rfl | hsep
  · by_cases heq : k = k'
    · exact .inl ⟨rfl, heq⟩
    · have : Std.Symm fun s s' : slot => s.offset + 13 ≤ s'.offset ∨ s'.offset + 13 ≤ s.offset :=
        ⟨fun _ _ h => h.symm⟩
      have := b.tr.apart.forall hk hk' heq
      right
      omega
  · right
    omega

theorem ptr_pos (h : Represents c (logOf c.mem live)) {b : block γ} (hb : b ∈ live) :
    0 < b.ptr := by
  have := (block_bounds h hb).1
  have := h.area_pos
  omega

/-- The live block at an address. -/
theorem find_ptr (h : Represents c (logOf c.mem live)) {b : block γ} (hb : b ∈ live) :
    live.find? (fun b' => b'.ptr = b.ptr) = some b := by
  have hsome : (live.find? (fun b' => b'.ptr = b.ptr)).isSome = true := by
    simp only [List.find?_isSome, decide_eq_true_eq]
    exact ⟨b, hb, rfl⟩
  obtain ⟨b', hb'⟩ := Option.isSome_iff_exists.mp hsome
  have hmem := List.mem_of_find?_eq_some hb'
  have hptr : b'.ptr = b.ptr := by simpa using List.find?_some hb'
  have hlen : 0 < sizeof_tb := by decide
  rcases blocks_apart h hb hmem with rfl | hsep
  · exact hb'
  · omega

theorem answer_logOf (m : Mem) (pc : Nat) (live : List (block γ)) :
    answer pc (logOf m live) = match live.find? (fun b => b.pc = pc) with
      | none => 0
      | some b => b.ptr := by
  induction live with
  | nil => rfl
  | cons b live ih =>
    unfold answer logOf at ih ⊢
    rw [List.map_cons, newest_cons]
    by_cases hb : b.pc = pc
    · simp [hb]
    · simpa [hb] using ih

end places

/-! ## Executing linked blocks -/

section execute

variable {T : target γ} {s : loop_state γ}

theorem count_lt {α : Type} {p q : α → Bool} {l : List α} {x : α} (hx : x ∈ l) (hq : q x = true)
    (hp : p x = false) (hpq : ∀ y, p y = true → q y = true) : l.countP p < l.countP q := by
  induction l with
  | nil => simp at hx
  | cons y l ih =>
    have hmono : l.countP p ≤ l.countP q := List.countP_mono_left fun z _ hz => hpq z hz
    rw [List.countP_cons, List.countP_cons]
    rcases List.mem_cons.mp hx with rfl | hx
    · simp [hq, hp]
      omega
    · have := ih hx
      have hy := hpq y
      by_cases hpy : p y = true
      · rw [if_pos hpy, if_pos (hy hpy)]
        omega
      · rw [if_neg hpy]
        omega

/-- The live blocks from an address on. -/
def above (live : List (block γ)) (ptr : Nat) : Nat := live.countP fun b => ptr ≤ b.ptr

/-- Where an exit of a live block leads. -/
theorem leave_slot_spec (h : Sound s) {b : block γ} {k : slot} (hb : b ∈ s.live)
    (hk : k ∈ b.tr.slots) :
    (leave_slot s.cache.mem (b.ptr + k.offset) = some none ∧
      s.cache.mem (b.ptr + k.offset) = 0xc3) ∨
    ∃ b' ∈ s.live, leave_slot s.cache.mem (b.ptr + k.offset) = some (some b'.ptr) ∧
      s.cache.mem (b.ptr + k.offset) = 0x90 ∧ b.ptr < b'.ptr ∧ b'.pc = k.value := by
  obtain ⟨h1, h2, h11, h12, hret | ⟨hnop, b', hb', hlt, hload, hpc⟩⟩ := h.exits b hb k hk
  · exact .inl ⟨by simp [leave_slot, hret], hret⟩
  · refine .inr ⟨b', hb', ?_, hnop, hlt, hpc⟩
    simp [leave_slot, hnop, h1, h2, h11, h12, hload]

/-- A live block that is executed returns, after at most as many blocks as there
    are from it on, and the exit it returns by is that of a live block. -/
theorem execute_returns (h : Sound s) {fuel : Nat} {b : block γ} (hb : b ∈ s.live) (g : γ)
    (hfuel : above s.live b.ptr ≤ fuel) :
    ∃ r, execute T s.live s.cache.mem fuel b.ptr g = some r ∧ r.result < 2 ^ 64 ∧
      (r.link_patch_area ≠ 0 → ∃ b' ∈ s.live, ∃ k ∈ b'.tr.slots,
        r.link_patch_area = b'.ptr + k.offset ∧ k.value = r.result ∧
        s.cache.mem r.link_patch_area = 0xc3) := by
  induction fuel generalizing b g with
  | zero =>
    have : 0 < above s.live b.ptr := List.countP_pos_iff.mpr ⟨b, hb, by simp⟩
    omega
  | succ fuel ih =>
    have hleaves := b.tr.leaves g
    simp only [execute, find_ptr h.represents hb, Option.bind_eq_bind, Option.bind_some]
    cases hleave : (b.tr.run g).leave with
    | out value =>
      rw [hleave] at hleaves
      exact ⟨_, rfl, hleaves, fun hne => absurd rfl hne⟩
    | through k =>
      rw [hleave] at hleaves
      have hget := List.getElem?_eq_getElem hleaves
      have hk := List.getElem_mem hleaves
      simp only [hget, Option.bind_some]
      rcases leave_slot_spec h hb hk with ⟨hret, hbyte⟩ | ⟨b', hb', hjump, -, hlt, hpc⟩
      · simp only [hret, Option.bind_some]
        exact ⟨_, rfl, b.tr.value_lt _ hk, fun _ => ⟨b, hb, _, hk, rfl, rfl, hbyte⟩⟩
      · simp only [hjump, Option.bind_some]
        have hless : above s.live b'.ptr < above s.live b.ptr :=
          count_lt hb (by simp) (by simpa using hlt) (by simp; omega)
        obtain ⟨r, hr, hres, hlink⟩ := ih hb' (b.tr.run g).guest (by omega)
        simp only [hr, Option.bind_some]
        exact ⟨_, rfl, hres, hlink⟩

end execute

/-! ## The operations of the loop on the cache -/

section operations

variable {s : loop_state γ}

/-- A clean is due at the next lookup. -/
def marked (s : loop_state γ) : Bool := s.is_cache_clean_need || s.cache.clean

theorem lookup_block_marked (hm : marked s = true) : lookup_block s = some ({ s with
    cache := reset s.cache
    is_cache_clean_need := false
    live := []
    linked := []
    log := s.log ++ [.cleaned] }, ⟨0, true⟩) := by
  unfold marked at hm
  cases hneed : s.is_cache_clean_need
  · rw [hneed, Bool.false_or] at hm
    simp [lookup_block, lookup, hneed, hm]
  · simp [lookup_block, lookup, hneed, ll_clean_cache, reset]

theorem lookup_block_unmarked (h : Sound s) (hm : marked s = false) :
    ∃ f, lookup_block s = some ({ s with cache := { s.cache with cached := f } },
        ⟨answer s.currentPc (logOf s.cache.mem s.live), false⟩) ∧
      Represents { s.cache with cached := f } (logOf s.cache.mem s.live) := by
  obtain ⟨hneed, hclean⟩ : s.is_cache_clean_need = false ∧ s.cache.clean = false := by
    simpa [marked] using hm
  obtain ⟨f, hlook, hrep⟩ := lookup_spec s.currentPc h.represents hclean
  refine ⟨f, ?_, hrep⟩
  obtain ⟨g, c, need, pc, prev, link, live, linked, log⟩ := s
  simp only at hneed hlook ⊢
  subst hneed
  simp [lookup_block, hlook]

theorem sound_reset (h : Sound s) : Sound { s with
    cache := reset s.cache
    is_cache_clean_need := false
    live := []
    linked := []
    log := s.log ++ [.cleaned] } where
  represents := represents_reset h.represents.area_pos h.represents.space
  exits := by simp
  pcs := List.Pairwise.nil
  nonempty := by simp
  room := h.room
  currentPc_lt := h.currentPc_lt
  linked := by simp
  linked_lt := by simp

theorem sound_cached (h : Sound s) {f : Nat → Nat}
    (hrep : Represents { s.cache with cached := f } (logOf s.cache.mem s.live)) :
    Sound { s with cache := { s.cache with cached := f } } where
  represents := hrep
  exits := h.exits
  pcs := h.pcs
  nonempty := h.nonempty
  room := h.room
  currentPc_lt := h.currentPc_lt
  linked := h.linked
  linked_lt := h.linked_lt

/-- An exit keeps its state when the code of its block keeps its bytes. -/
theorem SlotOk.frame {m m' : Mem} {live live' : List (block γ)} {b : block γ} {k : slot}
    (h : SlotOk m live b k) (hlive : ∀ b ∈ live, b ∈ live')
    (hm : ∀ x, b.ptr + k.offset ≤ x → x < b.ptr + k.offset + 13 → m' x = m x) :
    SlotOk m' live' b k := by
  have hload : m'.load (b.ptr + k.offset + 3) 8 = m.load (b.ptr + k.offset + 3) 8 := by
    unfold Mem.load
    rw [Mem.read_congr fun x hx hx' => hm x (by omega) (by omega)]
  unfold SlotOk at h ⊢
  simp only [hload, hm (b.ptr + k.offset) (by omega) (by omega),
    hm (b.ptr + k.offset + 1) (by omega) (by omega),
    hm (b.ptr + k.offset + 2) (by omega) (by omega),
    hm (b.ptr + k.offset + 11) (by omega) (by omega),
    hm (b.ptr + k.offset + 12) (by omega) (by omega)]
  obtain ⟨h1, h2, h11, h12, hret | ⟨hnop, b', hb', hrest⟩⟩ := h
  · exact ⟨h1, h2, h11, h12, .inl hret⟩
  · exact ⟨h1, h2, h11, h12, .inr ⟨hnop, b', hlive b' hb', hrest⟩⟩

/-- The bytes of an exit that has just been appended. -/
theorem slotOk_of_code {m : Mem} {b : block γ} {k : slot} (live : List (block γ))
    (hcode : m.read b.ptr b.tr.code.length = b.tr.code) (hk : k ∈ b.tr.slots) :
    SlotOk m live b k ∧ m (b.ptr + k.offset) = 0xc3 := by
  have hbyte : ∀ i v, b.tr.code[i]? = some v → m (b.ptr + i) = v := by
    intro i v hv
    have hi := (List.getElem?_eq_some_iff.mp hv).1
    have := Mem.getElem?_read (m := m) (a := b.ptr) hi
    rw [hcode, hv] at this
    exact (Option.some.inj this).symm
  obtain ⟨h0, h1, h2, h11, h12⟩ := b.tr.in_code k hk
  have h0 := hbyte _ _ h0
  exact ⟨⟨hbyte _ _ h1, hbyte _ _ h2, hbyte _ _ h11, hbyte _ _ h12, .inl h0⟩, h0⟩

/-- After a miss no slot of the cache answers for the pc. -/
theorem not_slot_holds {c : internal_cache} {live : List (block γ)} {pc : Nat}
    (h : Represents c (logOf c.mem live)) (hmiss : live.find? (fun b => b.pc = pc) = none) :
    ¬ slot_holds c pc := by
  rintro ⟨hne, hpc⟩
  obtain ⟨e, hnew, -, htb⟩ := h.cached _ hne
  have hmem := (newest_mem hnew).1
  have hspace := h.space
  have hfits := h.fits
  rw [htb, (h.stacked.fields (by omega) h.pcs e hmem).1] at hpc
  obtain ⟨b, hb, rfl⟩ := List.mem_map.mp hmem
  have := List.find?_eq_none.mp hmiss b hb
  exact this (by simpa using hpc)

/-- The state after the append of a translation. -/
def appended (s : loop_state γ) (tr : translation γ) (g : γ) : loop_state γ :=
  let r := append s.cache s.currentPc tr.code
  { s with
    guest := g
    cache := r.1
    live := ⟨s.currentPc, r.2.ptr, tr⟩ :: if r.2.cache_clean_event then [] else s.live
    linked := if r.2.cache_clean_event then [] else s.linked }

theorem append_block_eq (T : target γ) (hcode : (T.disassemble s.guest s.currentPc).1.code ≠ []) :
    append_block T s = some
      (appended s (T.disassemble s.guest s.currentPc).1 (T.disassemble s.guest s.currentPc).2,
        (append s.cache s.currentPc (T.disassemble s.guest s.currentPc).1.code).2) := by
  simp [append_block, appended, hcode]

theorem sound_appended (h : Sound s) (hmiss : s.live.find? (fun b => b.pc = s.currentPc) = none)
    (tr : translation γ) (g : γ) (hcode : tr.code ≠ []) : Sound (appended s tr g) := by
  have hsize := tr.size
  have hroom := h.room
  obtain ⟨c, ptr, happ, hrep, -, -⟩ := append_spec h.represents h.currentPc_lt
    (show tr.code.length + sizeof_tb ≤ s.cache.jitter_area_size by omega)
    (fun _ => not_slot_holds h.represents hmiss)
  obtain ⟨harea, hjit, hpos⟩ := append_area s.cache s.currentPc tr.code
  rw [happ] at harea hjit hpos
  simp only at harea hjit hpos
  -- the blocks that stay have the same bytes as before
  have hspace := hrep.space
  have hfits := hrep.fits
  have hdata := hrep.stacked.fields (by omega) hrep.pcs
  have hnew : c.mem.read ptr tr.code.length = tr.code := (hdata _ List.mem_cons_self).2
  have hold : ¬ area_full s.cache tr.code.length → ∀ b ∈ s.live,
      c.mem.read b.ptr b.tr.code.length = s.cache.mem.read b.ptr b.tr.code.length := by
    intro hfull b hb
    have hin : (⟨b.pc, b.ptr, s.cache.mem.read b.ptr b.tr.code.length⟩ : entry) ∈
        logOf s.cache.mem s.live := List.mem_map_of_mem hb
    rw [if_neg hfull] at hdata
    have := (hdata _ (List.mem_cons_of_mem _ hin)).2
    simpa using this
  have hlog : logOf c.mem (⟨s.currentPc, ptr, tr⟩ ::
      if area_full s.cache tr.code.length then [] else s.live) =
      ⟨s.currentPc, ptr, tr.code⟩ ::
        if area_full s.cache tr.code.length then [] else logOf s.cache.mem s.live := by
    unfold logOf
    rw [List.map_cons, hnew]
    split_ifs with hfull
    · rfl
    · congr 1
      exact List.map_congr_left fun b hb => by rw [hold hfull b hb]
  have hptr : ∀ a ∈ s.linked, ¬ area_full s.cache tr.code.length → a < ptr := by
    intro a ha hfull
    have hbound := (hrep.stacked.bounds _ (List.mem_cons_self)).2
    simp only at hbound
    have hlt := h.linked_lt a ha
    have : ptr = s.cache.area + s.cache.write_pos + sizeof_tb := by
      have hres := congrArg (fun r => r.2.ptr) happ
      simp only [append, if_neg hfull, tb_to_jit_area] at hres
      exact hres.symm
    omega
  unfold appended
  simp only [happ, decide_eq_true_eq]
  refine ⟨?_, ?_, ?_, ?_, by rw [hjit]; exact h.room, h.currentPc_lt, ?_, ?_⟩
  · rw [hlog]
    exact hrep
  · intro b hb k hk
    rcases List.mem_cons.mp hb with rfl | hb
    · exact (slotOk_of_code _ hnew hk).1
    · split_ifs at hb ⊢ with hfull
      · simp at hb
      · have hin := slot_bounds hk
        refine (h.exits b hb k hk).frame (fun b hb => List.mem_cons_of_mem _ hb) fun x hx hx' => ?_
        exact Mem.eq_of_read_eq (hold hfull b hb) (by omega) (by omega)
  · refine List.Pairwise.cons (fun b hb => ?_) ?_
    · split_ifs at hb
      · simp at hb
      · have := List.find?_eq_none.mp hmiss b hb
        simpa [eq_comm] using this
    · split_ifs
      · exact List.Pairwise.nil
      · exact h.pcs
  · intro b hb
    rcases List.mem_cons.mp hb with rfl | hb
    · exact List.length_pos_iff.mpr hcode
    · split_ifs at hb
      · simp at hb
      · exact h.nonempty b hb
  · intro b hb k hk
    rcases List.mem_cons.mp hb with rfl | hb
    · have hret := (slotOk_of_code s.live hnew hk).2
      simp only at hret ⊢
      rw [hret]
      refine ⟨fun hbad => absurd hbad (by decide), fun hin => ?_⟩
      split_ifs at hin with hfull
      · simp at hin
      · have := hptr _ hin hfull
        omega
    · split_ifs at hb ⊢ with hfull
      · simp at hb
      · have hin := slot_bounds hk
        rw [Mem.eq_of_read_eq (hold hfull b hb) (by omega) (by omega)]
        exact h.linked b hb k hk
  · intro a ha
    split_ifs at ha with hfull
    · simp at ha
    · have := h.linked_lt a ha
      rw [hpos, harea, if_neg hfull]
      omega

/-- The bytes after a patch. -/
def patched (m : Mem) (a p : Nat) : Mem := (m.write a [0x90]).store (a + 3) 8 p

theorem patched_apart {m : Mem} {a p x : Nat} (h : x ≠ a) (h' : x < a + 3 ∨ a + 11 ≤ x) :
    patched m a p x = m x := by
  unfold patched Mem.store
  rw [Mem.write_apart (by simpa using h'), Mem.write_apart (by simp; omega)]

theorem patched_nop (m : Mem) (a p : Nat) : patched m a p a = 0x90 := by
  unfold patched Mem.store
  rw [Mem.write_apart (by left; omega)]
  simp [Mem.write]

theorem patched_load {m : Mem} {a p : Nat} (hp : p < 2 ^ 64) :
    (patched m a p).load (a + 3) 8 = p := by
  unfold patched
  rw [Mem.load_store]
  omega

/-- Patching an exit of a live block to jump to a live block above it. -/
theorem sound_patched (h : Sound s) {b b' : block γ} {k : slot} (hb : b ∈ s.live)
    (hk : k ∈ b.tr.slots) (hb' : b' ∈ s.live) (hlt : b.ptr < b'.ptr) (hpc : b'.pc = k.value) :
    Sound { s with
      cache := { s.cache with mem := patched s.cache.mem (b.ptr + k.offset) b'.ptr }
      linked := (b.ptr + k.offset) :: s.linked } := by
  have hrep := h.represents
  have hin := slot_bounds hk
  have hbb := block_bounds hrep hb
  have hbb' := block_bounds hrep hb'
  have hspace := hrep.space
  have hfits := hrep.fits
  have hsz : 0 < sizeof_tb := by decide
  have hne := h.nonempty b' hb'
  refine ⟨?_, ?_, h.pcs, h.nonempty, h.room, h.currentPc_lt, ?_, ?_⟩
  · have hre := hrep.reread (m := patched s.cache.mem (b.ptr + k.offset) b'.ptr) ?_
    · have hlog : (logOf s.cache.mem s.live).map
          (entry.reread (patched s.cache.mem (b.ptr + k.offset) b'.ptr)) =
          logOf (patched s.cache.mem (b.ptr + k.offset) b'.ptr) s.live := by
        simp [logOf, entry.reread]
      rwa [hlog] at hre
    · -- the header of another block is outside the code of `b`
      intro e he x hx hx'
      obtain ⟨c, hc, rfl⟩ := List.mem_map.mp he
      simp only [entry.tb] at hx hx'
      have hcb := block_bounds hrep hc
      rcases blocks_apart hrep hb hc with rfl | hsep
      · exact patched_apart (by omega) (by omega)
      · exact patched_apart (by omega) (by omega)
  · intro c hc i hi
    rcases exits_apart hrep hb hc hk hi with ⟨rfl, rfl⟩ | hsep
    · obtain ⟨h1, h2, h11, h12, -⟩ := h.exits b hc k hi
      refine ⟨?_, ?_, ?_, ?_, .inr ⟨patched_nop _ _ _, b', hb', hlt, ?_, hpc⟩⟩
      · exact (patched_apart (by omega) (by omega)).trans h1
      · exact (patched_apart (by omega) (by omega)).trans h2
      · exact (patched_apart (by omega) (by omega)).trans h11
      · exact (patched_apart (by omega) (by omega)).trans h12
      · exact patched_load (by omega)
    · exact (h.exits c hc i hi).frame (fun _ h => h) fun x hx hx' =>
        patched_apart (by omega) (by omega)
  · intro c hc i hi
    dsimp only
    rcases exits_apart hrep hb hc hk hi with ⟨rfl, rfl⟩ | hsep
    · simp [patched_nop]
    · rw [patched_apart (by omega) (by omega), h.linked c hc i hi, List.mem_cons]
      exact ⟨.inr, fun hor => hor.resolve_left (by omega)⟩
  · intro a ha
    rcases List.mem_cons.mp ha with rfl | ha
    · simp only
      omega
    · exact h.linked_lt a ha

/-- Linking the block that was just appended. -/
theorem link_block_spec (links cleaned : Bool) {b' : block γ} (h : Sound s)
    (hb' : s.live.head? = some b') (hpc : b'.pc = s.currentPc)
    (hlink : cleaned = false → s.link_patch_area ≠ 0 → ∃ b ∈ s.live, b.ptr < b'.ptr ∧
      ∃ k ∈ b.tr.slots, s.link_patch_area = b.ptr + k.offset ∧ k.value = s.currentPc ∧
      s.cache.mem s.link_patch_area = 0xc3) :
    ∃ m l, link_block links s cleaned b'.ptr = some { s with
        cache := { s.cache with mem := m }, linked := l } ∧
      Sound { s with cache := { s.cache with mem := m }, linked := l } ∧
      ∀ k ∈ b'.tr.slots, m (b'.ptr + k.offset) = s.cache.mem (b'.ptr + k.offset) := by
  unfold link_block
  split_ifs with hdo
  · obtain ⟨-, -, hne, hcl⟩ := hdo
    obtain ⟨b, hb, hlt, k, hk, ha, hval, hret⟩ := hlink hcl hne
    have hlive := List.mem_of_mem_head? hb'
    refine ⟨patched s.cache.mem (b.ptr + k.offset) b'.ptr, (b.ptr + k.offset) :: s.linked, ?_, ?_,
      fun i hi => ?_⟩
    · simp [patch, hret, ← ha, patched]
    · exact sound_patched h hb hk hlive hlt (hpc.trans hval.symm)
    · rcases exits_apart h.represents hb hlive hk hi with ⟨rfl, -⟩ | hsep
      · omega
      · exact patched_apart (by omega) (by omega)
  · exact ⟨s.cache.mem, s.linked, rfl, h, fun _ _ => rfl⟩

end operations

/-! ## One round of the loop -/

section rounds

variable {T : target γ} {s s' : loop_state γ}

/-- The block just appended lies above the others. -/
theorem appended_above (h : Sound s) (hmiss : s.live.find? (fun b => b.pc = s.currentPc) = none)
    (tr : translation γ) (g : γ) (hcode : tr.code ≠ []) {b : block γ}
    (hb : b ∈ if (append s.cache s.currentPc tr.code).2.cache_clean_event then [] else s.live) :
    b.ptr < (append s.cache s.currentPc tr.code).2.ptr := by
  have hs := (sound_appended h hmiss tr g hcode).represents.stacked
  simp only [appended, logOf, List.map_cons] at hs
  obtain ⟨w₀, hes, hptr, -, -⟩ := hs
  have hbound := hes.bounds _ (List.mem_map_of_mem hb)
  simp only [Mem.length_read] at hbound
  have hsz : 0 < sizeof_tb := by decide
  simp only at hptr
  omega

/-- The exits of the block just appended return: no block lies above it. -/
theorem appended_fresh (h : Sound s) (hmiss : s.live.find? (fun b => b.pc = s.currentPc) = none)
    (tr : translation γ) (g : γ) (hcode : tr.code ≠ []) {k : slot} (hk : k ∈ tr.slots) :
    (appended s tr g).cache.mem ((append s.cache s.currentPc tr.code).2.ptr + k.offset) = 0xc3 := by
  have h' := sound_appended h hmiss tr g hcode
  obtain ⟨-, -, -, -, hret | ⟨-, b', hb', hlt, -⟩⟩ := h'.exits _ List.mem_cons_self k hk
  · exact hret
  · rcases List.mem_cons.mp hb' with rfl | hb'
    · exact absurd hlt (lt_irrefl _)
    · have := appended_above h hmiss tr g hcode hb'
      simp only at hlt
      omega

/-- An exit that returns, after the append of another block. -/
theorem appended_ret (h : Sound s) (hmiss : s.live.find? (fun b => b.pc = s.currentPc) = none)
    (tr : translation γ) (g : γ) (hcode : tr.code ≠ []) {b : block γ} {k : slot}
    (hev : (append s.cache s.currentPc tr.code).2.cache_clean_event = false)
    (hb : b ∈ s.live) (hk : k ∈ b.tr.slots) (hret : s.cache.mem (b.ptr + k.offset) = 0xc3) :
    (appended s tr g).cache.mem (b.ptr + k.offset) = 0xc3 := by
  have h' := sound_appended h hmiss tr g hcode
  have hb' : b ∈ (appended s tr g).live := by simp [appended, hev, hb]
  obtain ⟨-, -, -, -, hret' | ⟨hnop, -⟩⟩ := h'.exits b hb' k hk
  · exact hret'
  · rw [h'.linked b hb' k hk] at hnop
    simp only [appended, hev, Bool.false_eq_true, if_false] at hnop
    rw [← h.linked b hb k hk, hret] at hnop
    exact absurd hnop (by decide)

/-- A block that was not in the cache is appended, and linked when nothing was
    reset. -/
theorem new_block_spec {links cleaned : Bool} {area : Nat} (h : Sound s)
    (hmiss : s.live.find? (fun b => b.pc = s.currentPc) = none)
    (hlink : cleaned = false → LinkOk s) (hnew : new_block T links s cleaned = some (s', area)) :
    Sound s' ∧ (∃ b ∈ s'.live, b.ptr = area ∧ b.pc = s.currentPc ∧
        ∀ k ∈ b.tr.slots, s'.cache.mem (b.ptr + k.offset) = 0xc3) ∧
      s'.currentPc = s.currentPc := by
  obtain ⟨⟨s₁, res⟩, happ, hnew⟩ := Option.bind_eq_some_iff.mp hnew
  obtain ⟨s₂, hlk, hnew⟩ := Option.bind_eq_some_iff.mp hnew
  obtain ⟨rfl, rfl⟩ := Prod.mk.inj (Option.some.inj hnew)
  have hcode : (T.disassemble s.guest s.currentPc).1.code ≠ [] := by
    intro hnil
    simp [append_block, hnil] at happ
  rw [append_block_eq T hcode] at happ
  obtain ⟨rfl, rfl⟩ := Prod.mk.inj (Option.some.inj happ)
  have h₁ := sound_appended h hmiss _ (T.disassemble s.guest s.currentPc).2 hcode
  have hlink₁ := link_block_spec links (cleaned || (append s.cache s.currentPc
    (T.disassemble s.guest s.currentPc).1.code).2.cache_clean_event) h₁ rfl rfl ?_
  · obtain ⟨m, l, hlk', h₂, hkeep⟩ := hlink₁
    rw [hlk] at hlk'
    obtain rfl := Option.some.inj hlk'
    refine ⟨h₂, ⟨_, List.mem_cons_self, rfl, rfl, fun k hk => ?_⟩, rfl⟩
    exact (hkeep k hk).trans
      (appended_fresh h hmiss _ (T.disassemble s.guest s.currentPc).2 hcode hk)
  · intro hcl hne
    obtain ⟨hcl, hev⟩ := Bool.or_eq_false_iff.mp hcl
    obtain ⟨b, hb, k, hk, ha, hval, hret⟩ := hlink hcl hne
    have hb₁ : b ∈ if (append s.cache s.currentPc
        (T.disassemble s.guest s.currentPc).1.code).2.cache_clean_event then [] else s.live := by
      simpa [hev] using hb
    refine ⟨b, List.mem_cons_of_mem _ hb₁, ?_, k, hk, ha, hval, ?_⟩
    · exact appended_above h hmiss _ (T.disassemble s.guest s.currentPc).2 hcode hb₁
    · rw [ha] at hret
      have := appended_ret h hmiss _ (T.disassemble s.guest s.currentPc).2 hcode hev hb hk hret
      rwa [← ha] at this

/-- The block found is live and has the current pc. It was there before, or it is
    new and all its exits return. -/
theorem find_block_spec {links : Bool} {area : Nat} (h : Sound s) (hlink : LinkOk s)
    (hfind : find_block T links s = some (s', area)) :
    Sound s' ∧ (∃ b ∈ s'.live, b.ptr = area ∧ b.pc = s.currentPc ∧
        ((∀ k ∈ b.tr.slots, s'.cache.mem (b.ptr + k.offset) = 0xc3) ∨
          marked s = false ∧ ∃ f, s' = { s with cache := { s.cache with cached := f } })) ∧
      s'.currentPc = s.currentPc := by
  obtain ⟨⟨s₁, res⟩, hlook, hfind⟩ := Option.bind_eq_some_iff.mp hfind
  cases hm : marked s with
  | true =>
    rw [lookup_block_marked hm] at hlook
    obtain ⟨rfl, rfl⟩ := Prod.mk.inj (Option.some.inj hlook)
    obtain ⟨h', ⟨b, hb, hptr, hpc, hfresh⟩, hcur⟩ :=
      new_block_spec (sound_reset h) rfl (fun hno => by cases hno) hfind
    exact ⟨h', ⟨b, hb, hptr, hpc, .inl hfresh⟩, hcur⟩
  | false =>
    obtain ⟨f, hlook', hrep⟩ := lookup_block_unmarked h hm
    rw [hlook'] at hlook
    obtain ⟨rfl, rfl⟩ := Prod.mk.inj (Option.some.inj hlook)
    have h₁ := sound_cached h hrep
    rw [answer_logOf] at hfind
    cases hfound : s.live.find? (fun b => b.pc = s.currentPc) with
    | none =>
      simp only [hfound] at hfind
      obtain ⟨h', ⟨b, hb, hptr, hpc, hfresh⟩, hcur⟩ :=
        new_block_spec h₁ hfound (fun _ => hlink) hfind
      exact ⟨h', ⟨b, hb, hptr, hpc, .inl hfresh⟩, hcur⟩
    | some b =>
      have hb := List.mem_of_find?_eq_some hfound
      have hpc : b.pc = s.currentPc := by simpa using List.find?_some hfound
      have hpos := ptr_pos h.represents hb
      simp only [hfound, if_pos (show b.ptr ≠ 0 by omega)] at hfind
      obtain ⟨rfl, rfl⟩ := Prod.mk.inj (Option.some.inj hfind)
      exact ⟨h₁, ⟨b, hb, rfl, hpc, .inr ⟨rfl, f, rfl⟩⟩, rfl⟩

/-- The block with a pc, when pcs are distinct. -/
theorem find_pc (h : Sound s) {b : block γ} (hb : b ∈ s.live) :
    s.live.find? (fun b' => b'.pc = b.pc) = some b := by
  have hpcs := h.pcs
  generalize s.live = live at hb hpcs
  induction live with
  | nil => simp at hb
  | cons c live ih =>
    obtain ⟨hne, hrest⟩ := List.pairwise_cons.mp hpcs
    rcases List.mem_cons.mp hb with rfl | hb
    · simp
    · have hcb := hne b hb
      rw [List.find?_cons_of_neg (by simpa using hcb)]
      exact ih hb hrest

/-- A live block with the current pc is found, unless a clean is due. -/
theorem find_block_live (links : Bool) (h : Sound s) (hm : marked s = false) {b : block γ}
    (hb : b ∈ s.live) (hpc : b.pc = s.currentPc) :
    ∃ f, find_block T links s =
        some ({ s with cache := { s.cache with cached := f } }, b.ptr) ∧
      Represents { s.cache with cached := f } (logOf s.cache.mem s.live) := by
  obtain ⟨f, hlook, hrep⟩ := lookup_block_unmarked h hm
  have hans : answer s.currentPc (logOf s.cache.mem s.live) = b.ptr := by
    rw [answer_logOf, ← hpc, find_pc h hb]
  have hpos := ptr_pos h.represents hb
  refine ⟨f, ?_, hrep⟩
  simp [find_block, hlook, hans, show b.ptr ≠ 0 by omega]

theorem above_le (live : List (block γ)) (ptr : Nat) : above live ptr ≤ live.length :=
  List.countP_le_length

/-- A round is the search for the block and its execution. -/
theorem iterate_found {links : Bool} {s₁ : loop_state γ} {area : Nat}
    (hloop : T.isLooping s.guest = true)
    (hfind : find_block T links { s with log := s.log ++ [.check] } = some (s₁, area)) :
    iterate T links s = run_block T s₁ area := by
  unfold iterate
  rw [if_pos hloop, hfind]
  rfl

theorem iterate_inv {links : Bool} (hit : iterate T links s = some s') :
    T.isLooping s.guest = true ∧ ∃ s₁ area,
      find_block T links { s with log := s.log ++ [.check] } = some (s₁, area) ∧
      run_block T s₁ area = some s' := by
  unfold iterate at hit
  split_ifs at hit with hloop
  obtain ⟨⟨s₁, area⟩, hfind, hrun⟩ := Option.bind_eq_some_iff.mp hit
  exact ⟨hloop, s₁, area, hfind, hrun⟩

theorem Sound.checked (h : Sound s) : Sound { s with log := s.log ++ [.check] } :=
  ⟨h.represents, h.exits, h.pcs, h.nonempty, h.room, h.currentPc_lt, h.linked, h.linked_lt⟩

/-- One round keeps the links sound. -/
theorem iterate_sound {links : Bool} (h : Sound s) (hlink : LinkOk s)
    (hit : iterate T links s = some s') : Sound s' ∧ LinkOk s' := by
  obtain ⟨-, s₁, area, hfind, hrun⟩ := iterate_inv hit
  obtain ⟨h₁, ⟨b, hb, rfl, -⟩, -⟩ := find_block_spec h.checked hlink hfind
  obtain ⟨r, hr, hres, hrlink⟩ := execute_returns (T := T) h₁ hb s₁.guest (above_le _ _)
  simp only [run_block, hr, Option.bind_eq_bind, Option.bind_some, Option.some.injEq] at hrun
  subst hrun
  exact ⟨⟨h₁.represents, h₁.exits, h₁.pcs, h₁.nonempty, h₁.room, hres, h₁.linked, h₁.linked_lt⟩,
    hrlink⟩

end rounds

end Umeq.Loop
