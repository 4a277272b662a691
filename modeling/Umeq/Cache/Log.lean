import Umeq.Cache.Cache

/-! # The cache as a log of appended blocks

    Between two resets a cache stands for the log of the blocks appended to it,
    the last one first. `Represents c log` ties the two: the blocks are stacked
    in the area in the order of the log, the hash chains run through the log from
    the last block to the first, and a `cached` slot holds the last block of its
    guest pc.
-/

namespace Umeq.Cache

open Bytes

/-- A block: its guest pc, where its code starts and the code. -/
structure entry where
  pc : Nat
  ptr : Nat
  data : List UInt8

/-- The address of the `struct tb` before the code. -/
def entry.tb (e : entry) : Nat := e.ptr - sizeof_tb

/-- The last block with a given hash, 0 when there is none. -/
def headOf (h : Nat) (log : List entry) : Nat :=
  match log.find? (fun e => hash_pc e.pc = h) with
  | none => 0
  | some e => e.tb

/-- The last block of a guest pc. -/
def newest (pc : Nat) (log : List entry) : Option entry := log.find? (fun e => e.pc = pc)

/-- The blocks of the log fill the first `w` bytes of the area. -/
def Stacked (m : Mem) (area : Nat) : List entry → Nat → Prop
  | [], w => w = 0
  | e :: es, w => ∃ w₀, Stacked m area es w₀ ∧ e.ptr = area + w₀ + sizeof_tb ∧
      w = w₀ + e.data.length + sizeof_tb ∧
      m.read e.tb (sizeof_tb + e.data.length) = tb_bytes e.pc (headOf (hash_pc e.pc) es) e.data

structure Represents (c : internal_cache) (log : List entry) : Prop where
  stacked : Stacked c.mem c.area log c.write_pos
  fits : c.write_pos ≤ c.jitter_area_size
  area_pos : 0 < c.area
  space : c.area + c.jitter_area_size ≤ 2 ^ 64
  pcs : ∀ e ∈ log, e.pc < 2 ^ 64
  list : ∀ h, c.list h = headOf h log
  cached : ∀ h, c.cached h ≠ 0 → ∃ e, newest e.pc log = some e ∧ hash_pc e.pc = h ∧
    c.cached h = e.tb

/-- The part of `Represents` that does not depend on the `cached` slots. -/
structure Laid (c : internal_cache) (log : List entry) : Prop where
  stacked : Stacked c.mem c.area log c.write_pos
  fits : c.write_pos ≤ c.jitter_area_size
  area_pos : 0 < c.area
  space : c.area + c.jitter_area_size ≤ 2 ^ 64
  pcs : ∀ e ∈ log, e.pc < 2 ^ 64
  list : ∀ h, c.list h = headOf h log

theorem Represents.laid {c : internal_cache} {log : List entry} (h : Represents c log) : Laid c log :=
  ⟨h.stacked, h.fits, h.area_pos, h.space, h.pcs, h.list⟩

/-! ## Blocks in the area -/

section stacked

variable {m m' : Mem} {area w : Nat} {log : List entry}

/-- Where a block of the log sits. -/
theorem Stacked.bounds (h : Stacked m area log w) : ∀ e ∈ log,
    area + sizeof_tb ≤ e.ptr ∧ e.ptr + e.data.length ≤ area + w := by
  induction log generalizing w with
  | nil => simp
  | cons e es ih =>
    obtain ⟨w₀, hes, hptr, hw, -⟩ := h
    intro e' he'
    rcases List.mem_cons.mp he' with rfl | hmem
    · omega
    · have := ih hes e' hmem
      omega

/-- A newer block lies above the older ones. -/
theorem Stacked.apart (h : Stacked m area log w) :
    log.Pairwise fun e e' => e'.ptr + e'.data.length ≤ e.tb := by
  induction log generalizing w with
  | nil => exact List.Pairwise.nil
  | cons e es ih =>
    obtain ⟨w₀, hes, hptr, hw, -⟩ := h
    refine List.Pairwise.cons (fun e' he' => ?_) (ih hes)
    have := (hes.bounds e' he').2
    unfold entry.tb
    omega

/-- Writes above the stacked blocks leave them alone. -/
theorem Stacked.frame (h : Stacked m area log w)
    (hm : ∀ x, area ≤ x → x < area + w → m x = m' x) : Stacked m' area log w := by
  induction log generalizing w with
  | nil => exact h
  | cons e es ih =>
    obtain ⟨w₀, hes, hptr, hw, hread⟩ := h
    refine ⟨w₀, ih hes fun x hx hx' => hm x hx (by omega), hptr, hw, ?_⟩
    rw [← hread]
    refine (Mem.read_congr fun x hx hx' => hm x ?_ ?_).symm <;> unfold entry.tb at hx hx' <;> omega

theorem length_tb_bytes (pc next : Nat) (data : List UInt8) :
    (tb_bytes pc next data).length = sizeof_tb + data.length := by
  simp [tb_bytes, sizeof_tb]
  omega

/-- The fields of a block that is in memory. -/
theorem tb_fields {tb pc next : Nat} {data : List UInt8} (hpc : pc < 2 ^ 64) (hnext : next < 2 ^ 64)
    (h : m.read tb (sizeof_tb + data.length) = tb_bytes pc next data) :
    tb_guest_pc m tb = pc ∧ tb_next_in_hash_list m tb = next ∧
      m.read (tb + sizeof_tb) data.length = data := by
  unfold tb_bytes at h
  have hsize : m.read (tb + 2) 8 = le 8 pc := by
    simpa using Mem.read_part (le 2 (data.length + sizeof_tb)) (le 8 pc) (le 8 next ++ data)
      (by simpa using h)
  have hlink : m.read (tb + 10) 8 = le 8 next := by
    simpa using Mem.read_part (le 2 (data.length + sizeof_tb) ++ le 8 pc) (le 8 next) data
      (by simpa using h)
  have hdata : m.read (tb + sizeof_tb) data.length = data := by
    simpa [sizeof_tb] using Mem.read_part (le 2 (data.length + sizeof_tb) ++ le 8 pc ++ le 8 next)
      data [] (by simpa using h)
  refine ⟨?_, ?_, hdata⟩
  · rw [tb_guest_pc, Mem.load, hsize, ofLE_le]
    omega
  · rw [tb_next_in_hash_list, Mem.load, hlink, ofLE_le]
    omega

theorem headOf_cons (h : Nat) (e : entry) (es : List entry) :
    headOf h (e :: es) = if hash_pc e.pc = h then e.tb else headOf h es := by
  unfold headOf
  by_cases he : hash_pc e.pc = h <;> simp [he]

theorem newest_cons (pc : Nat) (e : entry) (es : List entry) :
    newest pc (e :: es) = if e.pc = pc then some e else newest pc es := by
  unfold newest
  by_cases he : e.pc = pc <;> simp [he]

theorem newest_mem {pc : Nat} {e : entry} (h : newest pc log = some e) : e ∈ log ∧ e.pc = pc :=
  ⟨List.mem_of_find?_eq_some h, by simpa using List.find?_some h⟩

theorem headOf_le (hs : Stacked m area log w) (h : Nat) : headOf h log ≤ area + w := by
  unfold headOf
  split
  · omega
  · next e he =>
    have := hs.bounds e (List.mem_of_find?_eq_some he)
    unfold entry.tb
    omega

/-- What is in memory for a block of the log. -/
theorem Stacked.fields (hs : Stacked m area log w) (hspace : area + w ≤ 2 ^ 64)
    (hpcs : ∀ e ∈ log, e.pc < 2 ^ 64) : ∀ e ∈ log,
      tb_guest_pc m e.tb = e.pc ∧ m.read e.ptr e.data.length = e.data := by
  induction log generalizing w with
  | nil => simp
  | cons e es ih =>
    obtain ⟨w₀, hes, hptr, hw, hread⟩ := hs
    intro e' he'
    rcases List.mem_cons.mp he' with rfl | hmem
    · have hnext := headOf_le hes (hash_pc e'.pc)
      have hlen : 0 < sizeof_tb := by decide
      obtain ⟨hpc, -, hdata⟩ := tb_fields (hpcs e' (by simp)) (by omega) hread
      rw [show e'.tb + sizeof_tb = e'.ptr by unfold entry.tb; omega] at hdata
      exact ⟨hpc, hdata⟩
    · exact ih hes (by omega) (fun e he => hpcs e (by simp [he])) e' hmem

/-- The chain of a hash runs through the log and finds the last block of the pc. -/
theorem search_log {pc fuel : Nat} (hs : Stacked m area log w) (hpos : 0 < area)
    (hspace : area + w ≤ 2 ^ 64) (hpcs : ∀ e ∈ log, e.pc < 2 ^ 64) (hfuel : log.length < fuel) :
    search m pc fuel (headOf (hash_pc pc) log) =
      some (match newest pc log with | none => 0 | some e => e.tb) := by
  induction log generalizing w fuel with
  | nil =>
    obtain ⟨fuel, rfl⟩ : ∃ k, fuel = k + 1 := ⟨fuel - 1, by omega⟩
    simp [search, headOf, newest]
  | cons e es ih =>
    obtain ⟨w₀, hes, hptr, hw, hread⟩ := hs
    have hes' := fun f (hf : es.length < f) =>
      ih hes (by omega) (fun e he => hpcs e (by simp [he])) hf
    rw [List.length_cons] at hfuel
    rw [headOf_cons, newest_cons]
    by_cases hhash : hash_pc e.pc = hash_pc pc
    · obtain ⟨fuel, rfl⟩ : ∃ k, fuel = k + 1 := ⟨fuel - 1, by omega⟩
      have hlen : 0 < sizeof_tb := by decide
      have hnext := headOf_le hes (hash_pc e.pc)
      obtain ⟨hpc, hlink, -⟩ := tb_fields (hpcs e (by simp)) (by omega) hread
      have htb : e.tb ≠ 0 := by unfold entry.tb; omega
      rw [if_pos hhash, search, if_neg htb, hpc, hlink, hhash]
      by_cases heq : e.pc = pc
      · simp [heq]
      · rw [if_neg heq, if_neg heq]
        exact hes' fuel (by omega)
    · have heq : e.pc ≠ pc := fun h => hhash (by rw [h])
      rw [if_neg hhash, if_neg heq]
      exact hes' fuel (by omega)

theorem Stacked.length_le (hs : Stacked m area log w) : log.length ≤ w := by
  induction log generalizing w with
  | nil => simp
  | cons e es ih =>
    obtain ⟨w₀, hes, -, hw, -⟩ := hs
    have := ih hes
    have hlen : 0 < sizeof_tb := by decide
    rw [List.length_cons]
    omega

end stacked

/-! ## The operations -/

section operations

variable {c : internal_cache} {log : List entry} {pc : Nat} {data : List UInt8}

theorem represents_reset (hpos : 0 < c.area) (hspace : c.area + c.jitter_area_size ≤ 2 ^ 64) :
    Represents (reset c) [] where
  stacked := rfl
  fits := Nat.zero_le _
  area_pos := hpos
  space := hspace
  pcs := by simp
  list := fun _ => rfl
  cached := fun _ h => absurd rfl h

/-- The pointer a lookup gives for the log. -/
def answer (pc : Nat) (log : List entry) : Nat :=
  match newest pc log with
  | none => 0
  | some e => e.ptr

/-- A lookup on a cache that is not marked for cleaning answers from the log, and
    at most moves a `cached` slot. -/
theorem lookup_spec (pc : Nat) (h : Represents c log) (hclean : c.clean = false) :
    ∃ f, lookup c pc = some ({ c with cached := f }, ⟨answer pc log, false⟩) ∧
      Represents { c with cached := f } log := by
  have hspace : c.area + c.write_pos ≤ 2 ^ 64 := by
    have := h.space
    have := h.fits
    omega
  have hfields := h.stacked.fields hspace h.pcs
  have hbounds := h.stacked.bounds
  have hpos := h.area_pos
  have hjit : ∀ e ∈ log, tb_to_jit_area e.tb = e.ptr := by
    intro e he
    have := hbounds e he
    unfold tb_to_jit_area entry.tb
    omega
  have hmark : ¬ c.clean = true := by simp [hclean]
  simp only [lookup, if_neg hmark]
  split_ifs with hhit
  · -- the slot of the hash has the pc
    obtain ⟨e, hnew, -, htb⟩ := h.cached _ hhit.1
    have hmem := (newest_mem hnew).1
    have hpc : e.pc = pc := by rw [← (hfields e hmem).1, ← htb, hhit.2]
    refine ⟨c.cached, ?_, h⟩
    rw [htb, hjit e hmem, answer, ← hpc, hnew]
  · have hlen := h.stacked.length_le
    rw [h.list, search_log h.stacked hpos hspace h.pcs (by omega)]
    simp only [Option.bind_eq_bind, Option.bind_some]
    cases hnew : newest pc log with
    | none => exact ⟨c.cached, by simp [answer, hnew], h⟩
    | some e =>
      obtain ⟨hmem, hpc⟩ := newest_mem hnew
      have htb : e.tb ≠ 0 := by
        have := hbounds e hmem
        unfold entry.tb
        omega
      refine ⟨Function.update c.cached (hash_pc pc) e.tb, ?_, ?_⟩
      · simp [htb, answer, hnew, hjit e hmem]
      · refine { h with cached := ?_ }
        intro i hi
        by_cases hih : i = hash_pc pc
        · subst hih
          exact ⟨e, by rw [hpc]; exact hnew, by rw [hpc], by simp⟩
        · simp only [Function.update_of_ne hih] at hi ⊢
          exact h.cached i hi

/-- The slot of the hash of `pc` holds a block of `pc`. -/
def slot_holds (c : internal_cache) (pc : Nat) : Prop :=
  c.cached (hash_pc pc) ≠ 0 ∧ tb_guest_pc c.mem (c.cached (hash_pc pc)) = pc

/-- A new block on top of the others. -/
theorem laid_setup_tb (h : Laid c log) (hpc : pc < 2 ^ 64)
    (hroom : c.write_pos + data.length + sizeof_tb ≤ c.jitter_area_size) :
    Laid (setup_tb c pc data) (⟨pc, tb_to_jit_area (c.area + c.write_pos), data⟩ :: log) := by
  have htb : (⟨pc, tb_to_jit_area (c.area + c.write_pos), data⟩ : entry).tb =
      c.area + c.write_pos := by
    simp [entry.tb, tb_to_jit_area]
  refine ⟨?_, ?_, h.area_pos, h.space, ?_, ?_⟩
  · refine ⟨c.write_pos, h.stacked.frame ?_, rfl, rfl, ?_⟩
    · exact fun x _ hx => (Mem.write_apart (.inl hx)).symm
    · rw [htb, ← h.list]
      have := c.mem.read_write (c.area + c.write_pos) (tb_bytes pc (c.list (hash_pc pc)) data)
      rwa [length_tb_bytes] at this
  · simp only [setup_tb]
    omega
  · intro e he
    rcases List.mem_cons.mp he with rfl | he
    · exact hpc
    · exact h.pcs e he
  · intro i
    rw [headOf_cons, htb]
    simp only [setup_tb, Function.update_apply, h.list, eq_comm]

theorem represents_setup_tb (h : Represents c log) (hpc : pc < 2 ^ 64)
    (hroom : c.write_pos + data.length + sizeof_tb ≤ c.jitter_area_size)
    (hslot : ¬ slot_holds c pc) :
    Represents (setup_tb c pc data)
      (⟨pc, tb_to_jit_area (c.area + c.write_pos), data⟩ :: log) := by
  have hspace : c.area + c.write_pos ≤ 2 ^ 64 := by
    have := h.space
    omega
  have hlaid := laid_setup_tb h.laid hpc hroom
  refine ⟨hlaid.stacked, hlaid.fits, hlaid.area_pos, hlaid.space, hlaid.pcs, hlaid.list, ?_⟩
  -- the slots still hold the last block of their pc, since none of them holds `pc`
  intro i hi
  obtain ⟨e, hnew, hhash, hslot'⟩ := h.cached i hi
  have hmem := (newest_mem hnew).1
  have hne : pc ≠ e.pc := by
    rintro rfl
    subst hhash
    refine hslot ⟨hi, ?_⟩
    rw [hslot']
    exact (h.stacked.fields hspace h.pcs e hmem).1
  exact ⟨e, by rw [newest_cons, if_neg hne, hnew], hhash, hslot'⟩

/-- Where an append leaves the area. -/
theorem append_area (c : internal_cache) (pc : Nat) (data : List UInt8) :
    (append c pc data).1.area = c.area ∧
    (append c pc data).1.jitter_area_size = c.jitter_area_size ∧
    (append c pc data).1.write_pos =
      (if area_full c data.length then 0 else c.write_pos) + data.length + sizeof_tb := by
  by_cases hfull : area_full c data.length <;> simp [append, setup_tb, reset, hfull]

/-- An append stacks the new block on the log, or on nothing when the area was
    full. -/
theorem append_spec (h : Represents c log) (hpc : pc < 2 ^ 64)
    (hfits : data.length + sizeof_tb ≤ c.jitter_area_size)
    (hslot : ¬ area_full c data.length → ¬ slot_holds c pc) :
    ∃ c' ptr, append c pc data = (c', ⟨ptr, decide (area_full c data.length)⟩) ∧
      Represents c' (⟨pc, ptr, data⟩ :: if area_full c data.length then [] else log) ∧
      c'.clean = (!decide (area_full c data.length) && c.clean) ∧
      c'.resets = c.resets + if area_full c data.length then 1 else 0 := by
  unfold append
  by_cases hfull : area_full c data.length
  · have hreset := represents_reset h.area_pos h.space
    refine ⟨_, _, rfl, ?_, ?_, ?_⟩
    · simp only [if_pos hfull]
      refine represents_setup_tb hreset hpc (by simp only [reset]; omega) ?_
      exact fun hs => hs.1 rfl
    · simp [hfull, setup_tb, reset]
    · simp [hfull, setup_tb, reset]
  · refine ⟨_, _, rfl, ?_, ?_, ?_⟩
    · simp only [if_neg hfull]
      unfold area_full at hfull
      exact represents_setup_tb h hpc (by omega) (hslot hfull)
    · simp [hfull, setup_tb]
    · simp [hfull, setup_tb]

/-! ## Changes to the code of a block -/

/-- The entry with the code that is in memory now. -/
def entry.reread (m : Mem) (e : entry) : entry := { e with data := m.read e.ptr e.data.length }

theorem headOf_reread (m : Mem) (h : Nat) (log : List entry) :
    headOf h (log.map (entry.reread m)) = headOf h log := by
  induction log with
  | nil => rfl
  | cons e es ih =>
    rw [List.map_cons, headOf_cons, headOf_cons, ih]
    rfl

theorem newest_reread (m : Mem) (pc : Nat) (log : List entry) :
    newest pc (log.map (entry.reread m)) = (newest pc log).map (entry.reread m) := by
  induction log with
  | nil => rfl
  | cons e es ih =>
    rw [List.map_cons, newest_cons, newest_cons, ih]
    change (if e.pc = pc then _ else _) = _
    split_ifs <;> rfl

/-- When only code changes, not the headers, the blocks stay where they are. -/
theorem Stacked.reread {m m' : Mem} {area w : Nat} {log : List entry} (h : Stacked m area log w)
    (hm : ∀ e ∈ log, ∀ x, e.tb ≤ x → x < e.ptr → m' x = m x) :
    Stacked m' area (log.map (entry.reread m')) w := by
  induction log generalizing w with
  | nil => exact h
  | cons e es ih =>
    obtain ⟨w₀, hes, hptr, hw, hread⟩ := h
    have htb : e.tb + sizeof_tb = e.ptr := by
      unfold entry.tb
      omega
    refine ⟨w₀, ih hes fun e' he' => hm e' (List.mem_cons_of_mem _ he'), hptr, ?_, ?_⟩
    · simpa [entry.reread] using hw
    · have hhead : m'.read e.tb sizeof_tb = m.read e.tb sizeof_tb :=
        Mem.read_congr fun x hx hx' => hm e List.mem_cons_self x hx (by omega)
      rw [Mem.read_add, htb] at hread
      have hhdr : m.read e.tb sizeof_tb = le 2 (e.data.length + sizeof_tb) ++ le 8 e.pc ++
          le 8 (headOf (hash_pc e.pc) es) := by
        unfold tb_bytes at hread
        exact List.append_inj_left hread (by simp [sizeof_tb])
      rw [headOf_reread]
      simp only [entry.reread, Mem.length_read] at *
      rw [show entry.tb ⟨e.pc, e.ptr, m'.read e.ptr e.data.length⟩ = e.tb from rfl, Mem.read_add,
        htb, hhead, hhdr]
      simp [tb_bytes]

theorem Represents.reread {m : Mem} (h : Represents c log)
    (hm : ∀ e ∈ log, ∀ x, e.tb ≤ x → x < e.ptr → m x = c.mem x) :
    Represents { c with mem := m } (log.map (entry.reread m)) where
  stacked := h.stacked.reread hm
  fits := h.fits
  area_pos := h.area_pos
  space := h.space
  pcs := by
    intro e he
    obtain ⟨e', he', rfl⟩ := List.mem_map.mp he
    exact h.pcs e' he'
  list := fun i => by rw [headOf_reread]; exact h.list i
  cached := by
    intro i hi
    obtain ⟨e, hnew, hhash, hslot⟩ := h.cached i hi
    refine ⟨e.reread m, ?_, hhash, hslot⟩
    rw [newest_reread]
    simp [entry.reread, hnew]

end operations

end Umeq.Cache
