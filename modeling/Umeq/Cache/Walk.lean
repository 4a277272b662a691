import Umeq.Cache.Map

/-! # The walk through the area of `lookup_pc`

    A signal handler asks `lookup_pc` for the block that a host pc is in. The walk follows
    the size fields of the blocks from the start of the area to its end.

    It finds every live block (`Walkable.found`). Past the last block it goes on in
    bytes that were left by earlier blocks or never written, and a size of zero there holds
    it forever (`loop_terminates_iff`).
-/

namespace Umeq.Cache

open Bytes

def tb_size (m : Mem) (tb : Nat) : Nat := m.load tb 2

/-- The block at `start` has the host pc. -/
def in_block (m : Mem) (host_pc start : Nat) : Prop :=
  host_pc ≥ start ∧ host_pc < start + tb_size m start

instance (m : Mem) (host_pc start : Nat) : Decidable (in_block m host_pc start) :=
  inferInstanceAs (Decidable (_ ∧ _))

/-- The loop of `lookup_pc`: the guest pc (0 when no block is found) and what is stored in
    `*host_pc_start`, `none` when the bound on the rounds is too small. -/
def lookup_pc_loop (m : Mem) (host_pc area_end : Nat) : Nat → Nat → Option (Nat × Option Nat)
  | 0, _ => none
  | fuel + 1, start =>
    if in_block m host_pc start then some (tb_guest_pc m start, some (start + sizeof_tb))
    else if start + tb_size m start < area_end then
      lookup_pc_loop m host_pc area_end fuel (start + tb_size m start)
    else some (0, none)

def area_end (c : internal_cache) : Nat := c.area + c.jitter_area_size

def lookup_pc (c : internal_cache) (host_pc fuel : Nat) : Option (Nat × Option Nat) :=
  lookup_pc_loop c.mem host_pc (area_end c) fuel c.area

/-- `sizeof(jitBuffer)` of the loop that calls `append`. -/
def JIT_BUFFER_SIZE : Nat := 16 * 1024

/-! ## The loop -/

section loop

variable {m : Mem} {host_pc area_end start fuel : Nat}

theorem loop_found (h : in_block m host_pc start) : lookup_pc_loop m host_pc area_end (fuel + 1) start =
    some (tb_guest_pc m start, some (start + sizeof_tb)) := by
  rw [lookup_pc_loop, if_pos h]

theorem loop_next (h : ¬ in_block m host_pc start) (hlt : start + tb_size m start < area_end) :
    lookup_pc_loop m host_pc area_end (fuel + 1) start =
      lookup_pc_loop m host_pc area_end fuel (start + tb_size m start) := by
  rw [lookup_pc_loop, if_neg h, if_pos hlt]

/-- More rounds do not change the answer. -/
theorem loop_mono {r : Nat × Option Nat} (h : lookup_pc_loop m host_pc area_end fuel start = some r)
    (k : Nat) : lookup_pc_loop m host_pc area_end (fuel + k) start = some r := by
  induction fuel generalizing start with
  | zero => cases h
  | succ fuel ih =>
    rw [Nat.add_right_comm, lookup_pc_loop]
    rw [lookup_pc_loop] at h
    split_ifs at h ⊢
    · exact h
    · exact ih h
    · exact h

/-- The headers that the walk meets from `start` on. -/
def header (m : Mem) (start : Nat) : Nat → Nat
  | 0 => start
  | n + 1 => header m (start + tb_size m start) n

/-- From `start` on, the walk meets no size of zero before it comes to the block of the
    host pc or to the end of the area. -/
def NoZeroSize (m : Mem) (host_pc area_end start : Nat) : Prop :=
  ∀ n, (∀ k ≤ n, header m start k < area_end ∧ ¬ in_block m host_pc (header m start k)) →
    tb_size m (header m start n) ≠ 0

/-- At a size of zero the walk stays. -/
theorem loop_stuck (hlt : start < area_end) (hnot : ¬ in_block m host_pc start)
    (hzero : tb_size m start = 0) (fuel : Nat) :
    lookup_pc_loop m host_pc area_end fuel start = none := by
  induction fuel with
  | zero => rfl
  | succ fuel ih =>
    rw [loop_next hnot (by omega), hzero]
    exact ih

/-- The rounds up to a header. -/
theorem loop_header {n : Nat}
    (h : ∀ k ≤ n, header m start k < area_end ∧ ¬ in_block m host_pc (header m start k)) (fuel : Nat) :
    lookup_pc_loop m host_pc area_end (fuel + n) start =
      lookup_pc_loop m host_pc area_end fuel (header m start n) := by
  induction n generalizing start with
  | zero => rfl
  | succ n ih =>
    have hnext : start + tb_size m start < area_end := by simpa [header] using (h 1 (by omega)).1
    have hnot : ¬ in_block m host_pc start := (h 0 (Nat.zero_le _)).2
    rw [← Nat.add_assoc, loop_next hnot hnext]
    exact ih fun k hk => h (k + 1) (by omega)

theorem loop_terminates_iff (hlt : start < area_end) :
    (∃ fuel, (lookup_pc_loop m host_pc area_end fuel start).isSome) ↔
      NoZeroSize m host_pc area_end start := by
  constructor
  · rintro ⟨fuel, hfuel⟩ n hheaders hzero
    obtain ⟨r, hr⟩ := Option.isSome_iff_exists.mp hfuel
    obtain ⟨hend, hnot⟩ := hheaders n (Nat.le_refl n)
    have hstuck := loop_stuck hend hnot hzero fuel
    rw [← loop_header hheaders, loop_mono hr] at hstuck
    cases hstuck
  · intro hsizes
    -- each round gets closer to the end of the area
    induction hd : area_end - start using Nat.strong_induction_on generalizing start with
    | _ d ih =>
      by_cases hin : in_block m host_pc start
      · exact ⟨1, by rw [loop_found hin]; rfl⟩
      · have hsize : tb_size m start ≠ 0 := by
          refine hsizes 0 ?_
          intro k hk
          obtain rfl : k = 0 := by omega
          exact ⟨hlt, hin⟩
        by_cases hnext : start + tb_size m start < area_end
        · obtain ⟨fuel, hfuel⟩ := ih (area_end - (start + tb_size m start)) (by omega) hnext (by
            intro n hheaders
            refine hsizes (n + 1) ?_
            intro k hk
            cases k with
            | zero => exact ⟨hlt, hin⟩
            | succ k => exact hheaders k (by omega)) rfl
          exact ⟨fuel + 1, by rwa [loop_next hin hnext]⟩
        · exact ⟨1, by rw [lookup_pc_loop, if_neg hin, if_neg hnext]; rfl⟩

end loop

/-! ## The live blocks -/

section live

variable {m : Mem} {area w host_pc area_end : Nat} {log : List entry}

theorem tb_size_eq {tb pc next : Nat} {data : List UInt8} (hsmall : data.length ≤ JIT_BUFFER_SIZE)
    (h : m.read tb (sizeof_tb + data.length) = tb_bytes pc next data) :
    tb_size m tb = sizeof_tb + data.length := by
  have hread : m.read tb 2 = le 2 (data.length + sizeof_tb) := by
    simpa using Mem.read_part [] (le 2 (data.length + sizeof_tb)) (le 8 pc ++ le 8 next ++ data)
      (by simpa [tb_bytes] using h)
  rw [tb_size, Mem.load, hread, ofLE_le]
  unfold JIT_BUFFER_SIZE at hsmall
  unfold sizeof_tb
  omega

/-- The walk goes through the live blocks when none of them has the host pc. -/
theorem Stacked.skip (h : Stacked m area log w) (hsmall : ∀ e ∈ log, e.data.length ≤ JIT_BUFFER_SIZE)
    (hend : area + w < area_end) (hout : host_pc < area ∨ area + w ≤ host_pc) (fuel : Nat) :
    lookup_pc_loop m host_pc area_end (fuel + log.length) area =
      lookup_pc_loop m host_pc area_end fuel (area + w) := by
  induction log generalizing w fuel with
  | nil =>
    obtain rfl := h
    rfl
  | cons e es ih =>
    obtain ⟨w₀, hes, hptr, hw, hread⟩ := h
    have htb : e.tb = area + w₀ := by
      unfold entry.tb
      omega
    have hsize := tb_size_eq (hsmall e List.mem_cons_self) hread
    rw [htb] at hsize
    have hnot : ¬ in_block m host_pc (area + w₀) := by
      unfold in_block
      omega
    rw [List.length_cons, Nat.add_comm es.length, ← Nat.add_assoc,
      ih hes (fun e' he' => hsmall e' (List.mem_cons_of_mem _ he')) (by omega) (by omega),
      loop_next hnot (by omega), hsize]
    congr 1
    omega

/-- One round suffices where the next header would be past the end. -/
theorem loop_last {start : Nat} (hend : area_end ≤ start + tb_size m start) :
    (lookup_pc_loop m host_pc area_end 1 start).isSome := by
  rw [lookup_pc_loop]
  split_ifs
  · rfl
  · omega
  · rfl

/-- It ends when the live blocks fill the area. -/
theorem Stacked.full (h : Stacked m area log w) (hsmall : ∀ e ∈ log, e.data.length ≤ JIT_BUFFER_SIZE)
    (hend : area_end ≤ area + w) (hend' : area + w ≤ area_end)
    (hout : host_pc < area ∨ area + w ≤ host_pc) :
    ∃ fuel, (lookup_pc_loop m host_pc area_end fuel area).isSome := by
  cases log with
  | nil =>
    obtain rfl := h
    exact ⟨1, loop_last (by omega)⟩
  | cons e es =>
    obtain ⟨w₀, hes, hptr, hw, hread⟩ := h
    have hsize := tb_size_eq (hsmall e List.mem_cons_self) hread
    rw [show e.tb = area + w₀ by unfold entry.tb; omega] at hsize
    have hpos : 0 < sizeof_tb := by decide
    refine ⟨1 + es.length, ?_⟩
    rw [hes.skip (fun e' he' => hsmall e' (List.mem_cons_of_mem _ he')) (by omega) (by omega)]
    exact loop_last (by omega)

/-- It stops at the live block that has the host pc. -/
theorem Stacked.found (h : Stacked m area log w) (hsmall : ∀ e ∈ log, e.data.length ≤ JIT_BUFFER_SIZE)
    (hend : area + w ≤ area_end) (hspace : area_end ≤ 2 ^ 64) (hpcs : ∀ e ∈ log, e.pc < 2 ^ 64)
    {e : entry} (he : e ∈ log) (hlo : e.tb ≤ host_pc) (hhi : host_pc < e.ptr + e.data.length) :
    ∃ fuel, lookup_pc_loop m host_pc area_end fuel area = some (e.pc, some e.ptr) := by
  have hguest := (h.fields (by omega) hpcs e he).1
  induction log generalizing w with
  | nil => cases he
  | cons e' es ih =>
    obtain ⟨w₀, hes, hptr, hw, hread⟩ := h
    rcases List.mem_cons.mp he with rfl | he
    · have htb : e.tb = area + w₀ := by
        unfold entry.tb
        omega
      have hsize := tb_size_eq (hsmall e List.mem_cons_self) hread
      rw [htb] at hsize hguest hlo
      have hin : in_block m host_pc (area + w₀) := by
        unfold in_block
        omega
      have hpos : 0 < sizeof_tb := by decide
      refine ⟨1 + es.length, ?_⟩
      rw [hes.skip (fun e' he' => hsmall e' (List.mem_cons_of_mem _ he')) (by omega) (by omega),
        loop_found hin, hguest, hptr]
    · exact ih hes (fun e' he' => hsmall e' (List.mem_cons_of_mem _ he')) (by omega)
        (fun e' he' => hpcs e' (List.mem_cons_of_mem _ he')) he

/-- The live blocks fill the area up to `w`. -/
theorem Stacked.covers (h : Stacked m area log w) (hlo : area ≤ host_pc) (hhi : host_pc < area + w) :
    ∃ e ∈ log, e.tb ≤ host_pc ∧ host_pc < e.ptr + e.data.length := by
  induction log generalizing w with
  | nil =>
    obtain rfl := h
    omega
  | cons e es ih =>
    obtain ⟨w₀, hes, hptr, hw, -⟩ := h
    rcases Nat.lt_or_ge host_pc (area + w₀) with hlt | hge
    · obtain ⟨e', he', hin⟩ := ih hes hlt
      exact ⟨e', List.mem_cons_of_mem _ he', hin⟩
    · refine ⟨e, List.mem_cons_self, ?_, by omega⟩
      unfold entry.tb
      omega

end live

/-! ## Runs -/

/-- The blocks of a log are laid out in the area, and each is of a size that the size field
    holds. -/
structure Walkable (c : internal_cache) (log : List entry) : Prop extends Laid c log where
  small : ∀ e ∈ log, e.data.length ≤ JIT_BUFFER_SIZE

/-- The calls of the loop: the code comes from its buffer. -/
def loop_call (t : tracked) (c : call) : Prop :=
  valid_call t.caches c ∧ ∀ cache pc data, c = .append cache pc data → data.length ≤ JIT_BUFFER_SIZE

/-- Every cache has the blocks of its history. -/
def AllWalkable (t : tracked) : Prop :=
  ∀ m c, t.caches.cache m = some c → Walkable c (t.history m).log

section runs

variable {c c' : internal_cache} {log : List entry} {pc : Nat} {data : List UInt8} {t : tracked}

theorem walkable_reset (hpos : 0 < c.area) (hspace : c.area + c.jitter_area_size ≤ 2 ^ 64) :
    Walkable (reset c) [] :=
  ⟨(represents_reset hpos hspace).laid, by simp⟩

/-- What a lookup can do to a cache. -/
theorem lookup_cases {res : result} (h : lookup c pc = some (c', res)) :
    c' = reset c ∨ ∃ f, c' = { c with cached := f } := by
  simp only [lookup] at h
  split_ifs at h
  · exact .inl (Prod.mk.inj (Option.some.inj h)).1.symm
  · exact .inr ⟨c.cached, (Prod.mk.inj (Option.some.inj h)).1.symm⟩
  · obtain ⟨current, -, h⟩ := Option.bind_eq_some_iff.mp h
    split_ifs at h
    · exact .inr ⟨c.cached, (Prod.mk.inj (Option.some.inj h)).1.symm⟩
    · exact .inr ⟨_, (Prod.mk.inj (Option.some.inj h)).1.symm⟩

theorem Walkable.marked (h : Walkable c log) : Walkable (ll_clean_cache c) log :=
  ⟨⟨h.stacked, h.fits, h.area_pos, h.space, h.pcs, h.list⟩, h.small⟩

theorem Walkable.append (h : Walkable c log) (hpc : pc < 2 ^ 64)
    (hfits : data.length + sizeof_tb ≤ c.jitter_area_size) (hsmall : data.length ≤ JIT_BUFFER_SIZE) :
    Walkable (append c pc data).1
      (⟨pc, (append c pc data).2.ptr, data⟩ :: if area_full c data.length then [] else log) := by
  have hstack : ∀ {c : internal_cache} {log : List entry}, Walkable c log →
      c.write_pos + data.length + sizeof_tb ≤ c.jitter_area_size →
      Walkable (setup_tb c pc data) (⟨pc, tb_to_jit_area (c.area + c.write_pos), data⟩ :: log) := by
    intro c log h hroom
    refine ⟨laid_setup_tb h.toLaid hpc hroom, ?_⟩
    intro e he
    rcases List.mem_cons.mp he with rfl | he
    · exact hsmall
    · exact h.small e he
  by_cases hfull : area_full c data.length
  · simp only [Cache.append, if_pos hfull]
    exact hstack (walkable_reset h.area_pos h.space) (by simp only [reset]; omega)
  · simp only [Cache.append, if_neg hfull]
    unfold area_full at hfull
    exact hstack h (by omega)

/-- A call that changes one cache. -/
theorem AllWalkable.update {w : caches} {g : Nat → history} {m : Nat} {x : history}
    (h : AllWalkable ⟨w, g⟩) (hc : Walkable c x.log) :
    AllWalkable ⟨{ w with cache := Function.update w.cache m (some c) }, Function.update g m x⟩ := by
  intro m' c' hc'
  by_cases hm : m' = m
  · subst hm
    simp only [Function.update_self, Option.some.injEq] at hc'
    subst hc'
    simpa using hc
  · simp only [Function.update_of_ne hm] at hc' ⊢
    exact h m' c' hc'

theorem AllWalkable.handle_clean (h : AllWalkable t) :
    AllWalkable ⟨Cache.handle_clean t.caches, t.history⟩ := by
  intro m c hc
  obtain ⟨c₀, hc₀, ⟨rfl, -⟩ | ⟨rfl, -⟩⟩ := handle_clean_cache hc
  · exact h m c hc₀
  · exact (h m c₀ hc₀).marked

theorem handle_clean_resets {w : caches} {m : Nat} (h : (Cache.handle_clean w).cache m = some c) :
    (w.cache m).map (·.resets) = some c.resets := by
  obtain ⟨c₀, hc₀, ⟨rfl, -⟩ | ⟨rfl, -⟩⟩ := handle_clean_cache h <;> simp [hc₀, ll_clean_cache]

/-- The step lemma. -/
theorem AllWalkable.step {w' : caches} {res : result} {x : call} (h : AllWalkable t)
    (hok : loop_call t x) (hexec : x.exec t.caches = some (w', res)) :
    AllWalkable ⟨w', observe t.caches w' res t.history x⟩ := by
  obtain ⟨hvalid, hsmall⟩ := hok
  cases x with
  | createCache m size contents =>
    obtain ⟨hm, hsize, hfresh, hspace⟩ := hvalid
    simp only [call.exec, createCache, hm, hsize, hfresh, ne_eq, not_false_eq_true, and_self, if_true]
      at hexec
    obtain ⟨rfl, rfl⟩ := Prod.mk.inj (Option.some.inj hexec)
    have hmin : sizeof_internal_cache ≤ MIN_CACHE_SIZE := by decide
    have hnew := walkable_reset (c := init_acache m size contents) (by simp only [init_acache]; omega)
      (by simp only [init_acache]; omega)
    exact h.update (x := ⟨[], false⟩) hnew
  | lookup m pc =>
    simp only [call.exec] at hexec
    obtain ⟨c, hc, hexec⟩ := Option.bind_eq_some_iff.mp hexec
    obtain ⟨⟨c', res'⟩, hlookup, hexec⟩ := Option.bind_eq_some_iff.mp hexec
    obtain ⟨rfl, rfl⟩ := Prod.mk.inj (Option.some.inj hexec)
    have hwalk := h.handle_clean m c hc
    have hresets := handle_clean_resets hc
    refine h.handle_clean.update ?_
    rcases lookup_cases hlookup with rfl | ⟨f, rfl⟩
    · rw [if_pos (by simp [was_reset, hresets, reset])]
      exact walkable_reset hwalk.area_pos hwalk.space
    · rw [if_neg (by simp [was_reset, hresets])]
      exact ⟨⟨hwalk.stacked, hwalk.fits, hwalk.area_pos, hwalk.space, hwalk.pcs, hwalk.list⟩,
        hwalk.small⟩
  | append m pc data =>
    obtain ⟨⟨c, hc, hfits⟩, hpc⟩ := hvalid
    simp only [call.exec, hc, Option.bind_eq_bind, Option.bind_some] at hexec
    obtain ⟨rfl, rfl⟩ := Prod.mk.inj (Option.some.inj hexec)
    refine h.update ?_
    have hwas : was_reset t.caches { t.caches with
        cache := Function.update t.caches.cache m (some (Cache.append c pc data).1) } m ↔
          area_full c data.length := by
      by_cases hfull : area_full c data.length <;>
        simp [was_reset, hc, Cache.append, setup_tb, reset, hfull]
    simp only [hwas]
    exact (h m c hc).append hpc hfits (hsmall m pc data rfl)
  | removeCache m =>
    simp only [call.exec, removeCache, show m ∈ t.caches.root from hvalid, if_true] at hexec
    obtain ⟨rfl, rfl⟩ := Prod.mk.inj (Option.some.inj hexec)
    exact h
  | cleanCaches =>
    obtain ⟨rfl, rfl⟩ := Prod.mk.inj (Option.some.inj hexec)
    intro m c hc
    have := h m c hc
    simp only [observe]
    split_ifs <;> exact this

/-- The run lemma. -/
theorem allWalkable_of_reach (h : cache_runs.Reach loop_call t) : AllWalkable t := by
  refine h.invariant ?_ ?_
  · intro m c hc
    cases hc
  · intro s x s' hs hok hexec
    obtain ⟨⟨w', res⟩, hrun, hexec⟩ := Option.bind_eq_some_iff.mp hexec
    obtain rfl := Option.some.inj hexec
    exact hs.step hok hrun

/-! ## What `lookup_pc` finds -/

/-- The host pc is in a live block. -/
def InLive (log : List entry) (host_pc : Nat) : Prop :=
  ∃ e ∈ log, e.tb ≤ host_pc ∧ host_pc < e.ptr + e.data.length

theorem Walkable.found (h : Walkable c log) {e : entry} (he : e ∈ log) {host_pc : Nat}
    (hlo : e.tb ≤ host_pc) (hhi : host_pc < e.ptr + e.data.length) :
    ∃ fuel, lookup_pc c host_pc fuel = some (e.pc, some e.ptr) :=
  h.stacked.found h.small (Nat.add_le_add_left h.fits _) h.space h.pcs he hlo hhi

theorem Walkable.terminates_iff (h : Walkable c log) (host_pc : Nat) :
    (∃ fuel, (lookup_pc c host_pc fuel).isSome) ↔
      InLive log host_pc ∨ NoZeroSize c.mem host_pc (area_end c) (c.area + c.write_pos) := by
  by_cases hlive : InLive log host_pc
  · obtain ⟨e, he, hlo, hhi⟩ := hlive
    obtain ⟨fuel, hfuel⟩ := h.found he hlo hhi
    exact iff_of_true ⟨fuel, by rw [hfuel]; rfl⟩ (.inl ⟨e, he, hlo, hhi⟩)
  · have hout : host_pc < c.area ∨ c.area + c.write_pos ≤ host_pc := by
      by_contra hin
      exact hlive (h.stacked.covers (by omega) (by omega))
    rw [or_iff_right hlive]
    rcases Nat.lt_or_ge (c.area + c.write_pos) (area_end c) with hroom | hfull
    · rw [← loop_terminates_iff hroom]
      constructor
      · rintro ⟨fuel, hfuel⟩
        obtain ⟨r, hr⟩ := Option.isSome_iff_exists.mp hfuel
        refine ⟨fuel, ?_⟩
        rw [← h.stacked.skip h.small hroom hout, loop_mono hr]
        rfl
      · rintro ⟨fuel, hfuel⟩
        exact ⟨fuel + log.length, by rwa [lookup_pc, h.stacked.skip h.small hroom hout]⟩
    · -- the blocks fill the area to its end
      refine iff_of_true (h.stacked.full h.small hfull (Nat.add_le_add_left h.fits _) hout) ?_
      intro n hheaders
      have := (hheaders 0 (Nat.zero_le n)).1
      simp only [header] at this
      omega

/-- In every run of the loop, a host pc in the code of a live block is found, with the guest
    pc and the start of the code of the block. The search ends for those host pcs that are
    in a live block or for which the bytes past the last block have no size of zero on the
    way. -/
theorem lookup_pc_owner (h : cache_runs.Reach loop_call t) {m : Nat}
    (hc : t.caches.cache m = some c) :
    (∀ e ∈ (t.history m).log, ∀ host_pc, e.ptr ≤ host_pc → host_pc < e.ptr + e.data.length →
      ∃ fuel, lookup_pc c host_pc fuel = some (e.pc, some e.ptr)) ∧
    ∀ host_pc, (∃ fuel, (lookup_pc c host_pc fuel).isSome) ↔
      InLive (t.history m).log host_pc ∨
        NoZeroSize c.mem host_pc (area_end c) (c.area + c.write_pos) := by
  have hwalk := allWalkable_of_reach h m c hc
  refine ⟨?_, hwalk.terminates_iff⟩
  intro e he host_pc hlo hhi
  refine hwalk.found he ?_ hhi
  unfold entry.tb
  omega

end runs

/-- Two blocks, and a host pc in the second one. -/
theorem lookup_pc_second_block : ∃ t c e, cache_runs.Reach loop_call t ∧
    t.caches.cache 0x10000 = some c ∧ e ∈ (t.history 0x10000).log ∧ e.pc = 0x8004 ∧
    ∃ fuel, lookup_pc c e.ptr fuel = some (0x8004, some e.ptr) := by
  obtain ⟨t, c, e, ht, hc, he, hpc, hdata⟩ : ∃ t c e, cache_runs.Reach loop_call t ∧
      t.caches.cache 0x10000 = some c ∧ e ∈ (t.history 0x10000).log ∧ e.pc = 0x8004 ∧
      e.data = [0x90, 0xc3] := by
    refine ⟨_, _, _, .step (.step (.step .init (l := small_cache) ⟨?_, ?_⟩ rfl)
      (l := .append 0x10000 0x8000 [0xc3]) ⟨?_, ?_⟩ rfl)
      (l := .append 0x10000 0x8004 [0x90, 0xc3]) ⟨?_, ?_⟩ rfl, rfl, List.mem_cons_self, rfl, rfl⟩
    · exact ⟨by decide, by decide, by decide, by decide⟩
    · rintro _ _ _ ⟨⟩
    · exact ⟨⟨_, rfl, by decide⟩, by decide⟩
    · rintro _ _ _ ⟨⟩
      decide
    · exact ⟨⟨_, rfl, by decide⟩, by decide⟩
    · rintro _ _ _ ⟨⟩
      decide
  obtain ⟨fuel, hfuel⟩ := (lookup_pc_owner ht hc).1 e he e.ptr (Nat.le_refl _) (by
    rw [hdata]
    exact Nat.lt_add_of_pos_right (by decide))
  exact ⟨t, c, e, ht, hc, he, hpc, fuel, by rw [hfuel, hpc]⟩

/-- A host pc above the area, as in the vdso: past the only block the walk finds the zeros of
    a fresh memory and stays there. -/
theorem lookup_pc_never_ends : ∃ t c, cache_runs.Reach loop_call t ∧
    t.caches.cache 0x10000 = some c ∧ ∀ fuel, lookup_pc c 0x7ffff7fc0000 fuel = none := by
  obtain ⟨t, c, ht, hc, hend, hroom, hzero⟩ : ∃ t c, cache_runs.Reach loop_call t ∧
      t.caches.cache 0x10000 = some c ∧ area_end c ≤ 0x7ffff7fc0000 ∧
      c.area + c.write_pos < area_end c ∧ tb_size c.mem (c.area + c.write_pos) = 0 := by
    refine ⟨_, _, .step (.step .init (l := small_cache) ⟨?_, ?_⟩ rfl)
        (l := .append 0x10000 0x8000 [0xc3]) ⟨?_, ?_⟩ rfl, rfl, by decide, by decide, by decide⟩
    · exact ⟨by decide, by decide, by decide, by decide⟩
    · rintro _ _ _ ⟨⟩
    · exact ⟨⟨_, rfl, by decide⟩, by decide⟩
    · rintro _ _ _ ⟨⟩
      decide
  have hwalk := allWalkable_of_reach ht _ c hc
  refine ⟨t, c, ht, hc, ?_⟩
  intro fuel
  by_contra hsome
  rw [← ne_eq, Option.ne_none_iff_isSome] at hsome
  rcases (hwalk.terminates_iff 0x7ffff7fc0000).mp ⟨fuel, hsome⟩ with ⟨e, he, -, hhi⟩ | hsizes
  · have := (hwalk.stacked.bounds e he).2
    omega
  · refine hsizes 0 ?_ hzero
    intro k hk
    obtain rfl : k = 0 := by omega
    refine ⟨hroom, ?_⟩
    rintro ⟨-, hlt⟩
    rw [header, hzero] at hlt
    omega

end Umeq.Cache
