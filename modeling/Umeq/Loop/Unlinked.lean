import Umeq.Loop.Links
import Mathlib.Logic.Relation

/-! # The loop with links against the loop without

    The reference is the same loop with `patch` never called. It comes back to
    the loop after every block, where it tests `isLooping` and looks the next pc
    up. A chain of linked blocks does neither. As long as no block of a chain has
    asked for the loop, the two enter the same blocks with the same guest: the
    lookup that the chain skips would have found the block it jumps to.
-/

namespace Umeq.Loop

open Bytes Umeq.Cache

variable {γ : Type}

/-! ## The two loops in step -/

/-- The blocks entered, with the guest at their entry. -/
def entered (log : List (action γ)) : List (Nat × γ) :=
  log.filterMap fun
    | .enter pc g => some (pc, g)
    | _ => none

theorem entered_append (l l' : List (action γ)) : entered (l ++ l') = entered l ++ entered l' := by
  simp [entered]

theorem entered_requests (T : target γ) (o : outcome γ) : entered (requests T o) = [] := by
  unfold requests entered
  split_ifs <;> rfl

/-- `r` is a state of the loop without links with the blocks of `s`. -/
structure Along (s r : loop_state γ) : Prop where
  sound : Sound r
  unlinked : r.linked = []
  live : r.live = s.live
  clean : r.cache.clean = s.cache.clean
  area : r.cache.area = s.cache.area
  size : r.cache.jitter_area_size = s.cache.jitter_area_size
  write_pos : r.cache.write_pos = s.cache.write_pos

/-- It is also at the same point of the run. -/
structure Mirrors (s r : loop_state γ) : Prop extends Along s r where
  guest : r.guest = s.guest
  currentPc : r.currentPc = s.currentPc
  need : r.is_cache_clean_need = s.is_cache_clean_need
  entered : entered r.log = entered s.log

/-- A chain of linked blocks in which only the last may ask for the loop. -/
def Quiet (T : target γ) (live : List (block γ)) (m : Mem) : Nat → Nat → γ → Prop
  | 0, _, _ => True
  | fuel + 1, ptr, g => ∀ b k s next, live.find? (fun b => b.ptr = ptr) = some b →
      (b.tr.run g).leave = .through k → b.tr.slots[k]? = some s →
      leave_slot m (b.ptr + s.offset) = some (some next) →
      T.isLooping (b.tr.run g).guest = true ∧ (b.tr.run g).clean = false ∧
      Quiet T live m fuel next (b.tr.run g).guest

/-- The rounds of the loop without links. -/
def unlinked_round (T : target γ) (r r' : loop_state γ) : Prop := iterate T false r = some r'

section mirrors

variable {T : target γ} {s s' r r' : loop_state γ}

theorem Mirrors.marked (h : Mirrors s r) : marked r = marked s := by
  unfold Loop.marked
  rw [h.need, h.clean]

/-- Without links every exit returns. -/
theorem unlinked_returns (h : Sound r) (hl : r.linked = []) {b : block γ} {k : slot}
    (hb : b ∈ r.live) (hk : k ∈ b.tr.slots) :
    leave_slot r.cache.mem (b.ptr + k.offset) = some none := by
  rcases leave_slot_spec h hb hk with ⟨hret, -⟩ | ⟨b', -, -, hnop, -⟩
  · exact hret
  · rw [h.linked b hb k hk, hl] at hnop
    simp at hnop

/-- Appending the same translation keeps the two loops in step. -/
theorem mirrors_appended (h : Mirrors s r)
    (hmiss : s.live.find? (fun b => b.pc = s.currentPc) = none) (tr : translation γ) (g : γ)
    (hcode : tr.code ≠ []) : Mirrors (appended s tr g) (appended r tr g) ∧
      (append r.cache r.currentPc tr.code).2 = (append s.cache s.currentPc tr.code).2 := by
  have hfull : area_full r.cache tr.code.length ↔ area_full s.cache tr.code.length := by
    unfold area_full
    rw [h.write_pos, h.size]
  have hres : (append r.cache r.currentPc tr.code).2 = (append s.cache s.currentPc tr.code).2 := by
    by_cases hf : area_full s.cache tr.code.length
    · simp [append, hf, hfull.mpr hf, reset, h.area]
    · simp [append, hf, mt hfull.mp hf, h.area, h.write_pos]
  have hmiss' : r.live.find? (fun b => b.pc = r.currentPc) = none := by
    rw [h.live, h.currentPc]
    exact hmiss
  obtain ⟨ha, hj, hw⟩ := append_area s.cache s.currentPc tr.code
  obtain ⟨ha', hj', hw'⟩ := append_area r.cache r.currentPc tr.code
  refine ⟨⟨⟨sound_appended h.sound hmiss' tr g hcode, ?_, ?_, ?_, ?_, ?_, ?_⟩, rfl, h.currentPc,
    h.need, h.entered⟩, hres⟩
  · simp [appended, h.unlinked]
  · simp only [appended]
    rw [hres, h.live, h.currentPc]
  · by_cases hf : area_full s.cache tr.code.length
    · simp [appended, append, hf, hfull.mpr hf, reset, setup_tb]
    · simp [appended, append, hf, mt hfull.mp hf, setup_tb, h.clean]
  · simp only [appended, ha, ha', h.area]
  · simp only [appended, hj, hj', h.size]
  · simp only [appended, hw, hw', h.write_pos, hfull]

theorem new_block_mirrors {cleaned : Bool} {area : Nat} (h : Mirrors s r)
    (hclean : marked s = false) (hmiss : s.live.find? (fun b => b.pc = s.currentPc) = none)
    (hnew : new_block T true s cleaned = some (s', area)) :
    ∃ r', new_block T false r cleaned = some (r', area) ∧ Mirrors s' r' ∧ marked s' = false := by
  obtain ⟨⟨s₁, res⟩, happ, hnew'⟩ := Option.bind_eq_some_iff.mp hnew
  obtain ⟨s₂, hlk, hnew'⟩ := Option.bind_eq_some_iff.mp hnew'
  obtain ⟨rfl, rfl⟩ := Prod.mk.inj (Option.some.inj hnew')
  have hcode : (T.disassemble s.guest s.currentPc).1.code ≠ [] := by
    intro hnil
    simp [append_block, hnil] at happ
  rw [append_block_eq T hcode] at happ
  obtain ⟨rfl, rfl⟩ := Prod.mk.inj (Option.some.inj happ)
  obtain ⟨hm, hres⟩ := mirrors_appended h hmiss (T.disassemble s.guest s.currentPc).1
    (T.disassemble s.guest s.currentPc).2 hcode
  -- the links change bytes of the area and nothing else
  obtain ⟨m, l, rfl⟩ : ∃ m l, s₂ = { appended s (T.disassemble s.guest s.currentPc).1
      (T.disassemble s.guest s.currentPc).2 with
      cache := { (appended s (T.disassemble s.guest s.currentPc).1
        (T.disassemble s.guest s.currentPc).2).cache with mem := m }, linked := l } := by
    unfold link_block at hlk
    split_ifs at hlk
    · obtain ⟨m, -, hlk⟩ := Option.bind_eq_some_iff.mp hlk
      exact ⟨m, _, (Option.some.inj hlk).symm⟩
    · exact ⟨_, _, (Option.some.inj hlk).symm⟩
  obtain ⟨hneed, hcl⟩ : s.is_cache_clean_need = false ∧ s.cache.clean = false := by
    simpa [marked] using hclean
  refine ⟨appended r (T.disassemble s.guest s.currentPc).1 (T.disassemble s.guest s.currentPc).2,
    ?_, ?_, ?_⟩
  · have hcode' : (T.disassemble r.guest r.currentPc).1.code ≠ [] := by
      rw [h.guest, h.currentPc]
      exact hcode
    have happ' := append_block_eq T hcode'
    rw [h.guest, h.currentPc] at happ'
    rw [h.currentPc] at hres
    simp [new_block, happ', hres, link_block]
  · exact ⟨⟨hm.sound, hm.unlinked, hm.live, hm.clean, hm.area, hm.size, hm.write_pos⟩,
      hm.guest, hm.currentPc, hm.need, hm.entered⟩
  · by_cases hf : area_full s.cache (T.disassemble s.guest s.currentPc).1.code.length <;>
      simp [marked, appended, append, setup_tb, reset, hf, hneed, hcl]

/-- The two loops find the same block. -/
theorem find_block_mirrors {area : Nat} (h : Mirrors s r) (hs : Sound s)
    (hfind : find_block T true s = some (s', area)) :
    ∃ r', find_block T false r = some (r', area) ∧ Mirrors s' r' ∧ marked s' = false := by
  obtain ⟨⟨s₁, res⟩, hlook, hfind⟩ := Option.bind_eq_some_iff.mp hfind
  cases hm : marked s with
  | true =>
    rw [lookup_block_marked hm] at hlook
    obtain ⟨rfl, rfl⟩ := Prod.mk.inj (Option.some.inj hlook)
    have hmirror : Mirrors
        { s with cache := reset s.cache, is_cache_clean_need := false, live := [], linked := [],
                 log := s.log ++ [.cleaned] }
        { r with cache := reset r.cache, is_cache_clean_need := false, live := [], linked := [],
                 log := r.log ++ [.cleaned] } :=
      ⟨⟨sound_reset h.sound, rfl, rfl, rfl, h.area, h.size, rfl⟩, h.guest, h.currentPc, rfl,
        by rw [entered_append, entered_append, h.entered]⟩
    obtain ⟨r', hr', hm', hcl⟩ :=
      new_block_mirrors hmirror rfl rfl hfind
    refine ⟨r', ?_, hm', hcl⟩
    simpa [find_block, lookup_block_marked (h.marked.trans hm)] using hr'
  | false =>
    obtain ⟨f, hlook', -⟩ := lookup_block_unmarked hs hm
    rw [hlook'] at hlook
    obtain ⟨rfl, rfl⟩ := Prod.mk.inj (Option.some.inj hlook)
    obtain ⟨f', hlookr, hrepr⟩ := lookup_block_unmarked h.sound (h.marked.trans hm)
    have hmirror : Mirrors { s with cache := { s.cache with cached := f } }
        { r with cache := { r.cache with cached := f' } } :=
      ⟨⟨sound_cached h.sound hrepr, h.unlinked, h.live, h.clean, h.area, h.size, h.write_pos⟩,
        h.guest, h.currentPc, h.need, h.entered⟩
    have hans : answer r.currentPc (logOf r.cache.mem r.live) =
        answer s.currentPc (logOf s.cache.mem s.live) := by
      rw [answer_logOf, answer_logOf, h.live, h.currentPc]
    cases hfound : s.live.find? (fun b => b.pc = s.currentPc) with
    | none =>
      have hzero : answer s.currentPc (logOf s.cache.mem s.live) = 0 := by
        rw [answer_logOf, hfound]
      simp only [hzero, ne_eq, not_true_eq_false, if_false] at hfind
      obtain ⟨r', hr', hm', hcl⟩ :=
        new_block_mirrors hmirror hm hfound hfind
      refine ⟨r', ?_, hm', hcl⟩
      simpa [find_block, hlookr, hans, hzero] using hr'
    | some b =>
      have hb := List.mem_of_find?_eq_some hfound
      have hpos := ptr_pos hs.represents hb
      have hptr : answer s.currentPc (logOf s.cache.mem s.live) = b.ptr := by
        rw [answer_logOf, hfound]
      simp only [hptr, if_pos (show b.ptr ≠ 0 by omega)] at hfind
      obtain ⟨rfl, rfl⟩ := Prod.mk.inj (Option.some.inj hfind)
      refine ⟨_, ?_, hmirror, hm⟩
      simp [find_block, hlookr, hans, hptr, show b.ptr ≠ 0 by omega]

/-- The value a block is left with. -/
def exit_value (b : block γ) (g : γ) : Nat :=
  match (b.tr.run g).leave with
  | .out value => value
  | .through k => (b.tr.slots[k]?.map slot.value).getD 0

/-- Without links one block is run at a time. -/
theorem run_block_unlinked (h : Sound r) (hl : r.linked = []) {b : block γ} (hb : b ∈ r.live) :
    ∃ link, run_block T r b.ptr = some { r with
      guest := (b.tr.run r.guest).guest
      is_cache_clean_need := r.is_cache_clean_need || (b.tr.run r.guest).clean
      currentPc := exit_value b r.guest
      prevCurrentPc := r.currentPc
      link_patch_area := link
      log := r.log ++ (.enter b.pc r.guest :: requests T (b.tr.run r.guest)) } := by
  obtain ⟨n, hn⟩ : ∃ n, r.live.length = n + 1 :=
    ⟨r.live.length - 1, by have := List.length_pos_of_mem hb; omega⟩
  have hleaves := b.tr.leaves r.guest
  simp only [run_block, hn, execute, find_ptr h.represents hb, Option.bind_eq_bind,
    Option.bind_some]
  cases hleave : (b.tr.run r.guest).leave with
  | out value => exact ⟨0, by simp [exit_value, hleave]⟩
  | through k =>
    rw [hleave] at hleaves
    have hget := List.getElem?_eq_getElem hleaves
    have hret := unlinked_returns h hl hb (List.getElem_mem hleaves)
    exact ⟨b.ptr + (b.tr.slots.get ⟨k, hleaves⟩).offset, by
      simp [exit_value, hleave, hget, hret]⟩

theorem exit_value_lt (b : block γ) (g : γ) : exit_value b g < 2 ^ 64 := by
  have hleaves := b.tr.leaves g
  unfold exit_value
  cases hleave : (b.tr.run g).leave with
  | out value =>
    rw [hleave] at hleaves
    exact hleaves
  | through k =>
    rw [hleave] at hleaves
    have hget := List.getElem?_eq_getElem hleaves
    simpa [hget] using b.tr.value_lt _ (List.getElem_mem hleaves)

/-- A state that differs in what the blocks of the cache do not depend on. -/
theorem Along.of_eq (h : Along s r) (hc : r'.cache = r.cache) (hl : r'.live = r.live)
    (hlk : r'.linked = r.linked) (hpc : r'.currentPc < 2 ^ 64) : Along s r' := by
  obtain ⟨hsound, hun, hlive, hclean, harea, hsize, hpos⟩ := h
  refine ⟨⟨?_, ?_, ?_, ?_, ?_, hpc, ?_, ?_⟩, ?_, ?_, ?_, ?_, ?_, ?_⟩
  · rw [hc, hl]; exact hsound.represents
  · rw [hc, hl]; exact hsound.exits
  · rw [hl]; exact hsound.pcs
  · rw [hl]; exact hsound.nonempty
  · rw [hc]; exact hsound.room
  · rw [hc, hl, hlk]; exact hsound.linked
  · rw [hc, hlk]; exact hsound.linked_lt
  · rw [hlk, hun]
  · rw [hl, hlive]
  · rw [hc, hclean]
  · rw [hc, harea]
  · rw [hc, hsize]
  · rw [hc, hpos]

/-- The round in which the loop without links comes back for a block that is in
    the cache. -/
theorem find_block_hit (h : Along s r) (hm : marked r = false) {b : block γ} (hb : b ∈ s.live)
    (hpc : r.currentPc = b.pc) :
    ∃ f, find_block T false r = some ({ r with cache := { r.cache with cached := f } }, b.ptr) ∧
      Along s { r with cache := { r.cache with cached := f } } := by
  have hb' : b ∈ r.live := h.live ▸ hb
  obtain ⟨f, hfind, hrep⟩ := find_block_live false h.sound hm hb' hpc.symm
  exact ⟨f, hfind, sound_cached h.sound hrep, h.unlinked, h.live, h.clean, h.area, h.size,
    h.write_pos⟩

/-- A quiet chain, block by block: the loop without links enters the same blocks,
    one a round, and ends with the same guest and pc. -/
theorem chain_mirrors {fuel : Nat} {b : block γ} {g : γ} {res : execute_result γ} (hs : Sound s)
    (hclean : s.cache.clean = false) (h : Along s r) (hneed : r.is_cache_clean_need = false)
    (hg : r.guest = g) (hb : b ∈ s.live) (hq : Quiet T s.live s.cache.mem fuel b.ptr g)
    (hx : execute T s.live s.cache.mem fuel b.ptr g = some res) :
    ∃ r₁ r', run_block T r b.ptr = some r₁ ∧ Relation.ReflTransGen (unlinked_round T) r₁ r' ∧
      Along s r' ∧ r'.guest = res.guest ∧ r'.currentPc = res.result ∧
      r'.is_cache_clean_need = res.clean ∧ entered r'.log = entered r.log ++ entered res.log := by
  induction fuel generalizing b g r res with
  | zero => simp [execute] at hx
  | succ fuel ih =>
    subst hg
    obtain ⟨link, hrun⟩ := run_block_unlinked (T := T) h.sound h.unlinked (h.live ▸ hb)
    have hfind := find_ptr hs.represents hb
    have hlt := exit_value_lt b r.guest
    have hal : Along s { r with
        guest := (b.tr.run r.guest).guest
        is_cache_clean_need := r.is_cache_clean_need || (b.tr.run r.guest).clean
        currentPc := exit_value b r.guest
        prevCurrentPc := r.currentPc
        link_patch_area := link
        log := r.log ++ (.enter b.pc r.guest :: requests T (b.tr.run r.guest)) } :=
      h.of_eq rfl rfl rfl hlt
    have hent : entered (action.enter b.pc r.guest :: requests T (b.tr.run r.guest)) =
        [(b.pc, r.guest)] := by
      have := entered_requests T (b.tr.run r.guest)
      unfold entered at this ⊢
      simp [this]
    simp only [execute, hfind, Option.bind_eq_bind, Option.bind_some] at hx
    have hleaves := b.tr.leaves r.guest
    cases hleave : (b.tr.run r.guest).leave with
    | out value =>
      simp only [hleave, Option.some.injEq] at hx
      subst hx
      refine ⟨_, _, hrun, .refl, hal, rfl, ?_, ?_, ?_⟩
      · simp [exit_value, hleave]
      · simp [hneed]
      · simp [entered_append]
    | through k =>
      rw [hleave] at hleaves
      have hget := List.getElem?_eq_getElem hleaves
      have hk := List.getElem_mem hleaves
      simp only [hleave, hget, Option.bind_some] at hx
      have hval : exit_value b r.guest = b.tr.slots[k].value := by
        simp [exit_value, hleave, hget]
      rcases leave_slot_spec hs hb hk with ⟨hret, -⟩ | ⟨b', hb', hjump, -, -, hpc⟩
      · simp only [hret, Option.bind_some, Option.some.injEq] at hx
        subst hx
        refine ⟨_, _, hrun, .refl, hal, rfl, hval, ?_, ?_⟩
        · simp [hneed]
        · simp [entered_append]
      · -- the chain goes on: the loop without links comes back for `b'`
        simp only [hjump, Option.bind_some] at hx
        obtain ⟨res', hx', hx⟩ := Option.bind_eq_some_iff.mp hx
        obtain rfl := Option.some.inj hx
        obtain ⟨hloop, hnoclean, hq'⟩ := hq b k _ b'.ptr hfind hleave hget hjump
        have hal' : Along s { r with
            guest := (b.tr.run r.guest).guest
            is_cache_clean_need := r.is_cache_clean_need || (b.tr.run r.guest).clean
            currentPc := exit_value b r.guest
            prevCurrentPc := r.currentPc
            link_patch_area := link
            log := r.log ++ (.enter b.pc r.guest :: requests T (b.tr.run r.guest)) ++ [.check] } :=
          hal.of_eq rfl rfl rfl hlt
        obtain ⟨f, hhit, hal''⟩ := find_block_hit (T := T) hal'
          (by simp [marked, hneed, hnoclean, h.clean, hclean]) hb' (by rw [hpc]; exact hval)
        obtain ⟨r₁, r', hr₁, hstar, hal₃, hguest, hpc', hneed', hent'⟩ :=
          ih hal'' (by simp [hneed, hnoclean]) rfl hb' hq' hx'
        refine ⟨_, r', hrun, .head ?_ hstar, hal₃, hguest, hpc', ?_, ?_⟩
        · exact (iterate_found hloop hhit).trans hr₁
        · rw [hneed', hnoclean, Bool.false_or]
        · rw [hent']
          simp only [entered_append, hent, List.append_assoc]
          simp [entered]

end mirrors

end Umeq.Loop
