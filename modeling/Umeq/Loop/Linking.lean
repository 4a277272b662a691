import Umeq.Loop.Unlinked
import Umeq.Jitter.X8664.Emit

/-! # Block linking over whole runs

    In every run a patched exit leads to the live block it should, and the links
    have no cycle. That the blocks entered are those of a loop that never patches
    needs more: a block that asks for the loop must not leave by a patched exit.
-/

namespace Umeq.Loop

open Bytes Umeq.Cache

variable {γ : Type}

/-! ## The condition on a round -/

/-- The chain that the next round enters is quiet. A block that has to be
    translated first has no patched exit, so only a block that is in the cache
    counts. -/
def quiet_round (T : target γ) (s : loop_state γ) : Prop :=
  marked s = false → ∀ b ∈ s.live, b.pc = s.currentPc →
    Quiet T s.live s.cache.mem s.live.length b.ptr s.guest

section rounds

variable {T : target γ} {s s' r : loop_state γ}

theorem quiet_of_fresh (h : Sound s) {b : block γ} (hb : b ∈ s.live)
    (hfresh : ∀ k ∈ b.tr.slots, s.cache.mem (b.ptr + k.offset) = 0xc3) (fuel : Nat) (g : γ) :
    Quiet T s.live s.cache.mem fuel b.ptr g := by
  cases fuel with
  | zero => trivial
  | succ fuel =>
    intro b' k i next hfind _ hslot hnext
    rw [find_ptr h.represents hb] at hfind
    obtain rfl := Option.some.inj hfind
    have hret := hfresh i (List.mem_of_getElem? hslot)
    simp [leave_slot, hret] at hnext

/-- What a quiet round executes is a quiet chain. -/
theorem find_block_quiet {links : Bool} {area : Nat} (h : Sound s) (hlink : LinkOk s)
    (hq : quiet_round T s) (hfind : find_block T links s = some (s', area)) :
    Quiet T s'.live s'.cache.mem s'.live.length area s'.guest := by
  obtain ⟨h', ⟨b, hb, rfl, hpc, hfresh | ⟨hm, f, rfl⟩⟩, -⟩ := find_block_spec h hlink hfind
  · exact quiet_of_fresh h' hb hfresh _ _
  · exact hq hm b hb hpc

theorem run_block_inv {area : Nat} (hrun : run_block T s area = some s') :
    ∃ res, execute T s.live s.cache.mem s.live.length area s.guest = some res ∧ s' = { s with
      guest := res.guest
      is_cache_clean_need := s.is_cache_clean_need || res.clean
      currentPc := res.result
      prevCurrentPc := s.currentPc
      link_patch_area := res.link_patch_area
      log := s.log ++ res.log } := by
  obtain ⟨res, hres, hrun⟩ := Option.bind_eq_some_iff.mp hrun
  exact ⟨res, hres, (Option.some.inj hrun).symm⟩

/-- A quiet round is some rounds of the loop without links. -/
theorem iterate_mirrors (hs : Sound s) (hlink : LinkOk s) (h : Mirrors s r)
    (hq : quiet_round T s) (hit : iterate T true s = some s') :
    ∃ r', Relation.ReflTransGen (unlinked_round T) r r' ∧ Mirrors s' r' := by
  obtain ⟨hloop, s₁, area, hfind, hrun⟩ := iterate_inv hit
  have hm₀ : Mirrors { s with log := s.log ++ [.check] } { r with log := r.log ++ [.check] } :=
    ⟨⟨h.sound.checked, h.unlinked, h.live, h.clean, h.area, h.size, h.write_pos⟩, h.guest,
      h.currentPc, h.need, by rw [entered_append, entered_append, h.entered]⟩
  obtain ⟨r₁, hfindr, hm₁, hunmarked⟩ := find_block_mirrors hm₀ hs.checked hfind
  obtain ⟨hneed, hclean⟩ : s₁.is_cache_clean_need = false ∧ s₁.cache.clean = false := by
    simpa [marked] using hunmarked
  have hquiet := find_block_quiet hs.checked hlink hq hfind
  obtain ⟨h₁, ⟨b, hb, rfl, -⟩, -⟩ := find_block_spec hs.checked hlink hfind
  obtain ⟨res, hres, rfl⟩ := run_block_inv hrun
  obtain ⟨r₂, r', hr₂, hstar, hal, hguest, hpc, hneed', hent⟩ :=
    chain_mirrors h₁ hclean hm₁.toAlong (hm₁.need.trans hneed) hm₁.guest hb hquiet hres
  have hloop' : T.isLooping r.guest = true := by
    rw [h.guest]
    exact hloop
  refine ⟨r', .head ((iterate_found hloop' hfindr).trans hr₂) hstar, ?_⟩
  refine ⟨⟨hal.sound, hal.unlinked, hal.live, hal.clean, hal.area, hal.size, hal.write_pos⟩,
    hguest, hpc, ?_, ?_⟩
  · rw [hneed', hneed, Bool.false_or]
  · rw [hent, hm₁.entered, entered_append]

end rounds

/-! ## Runs -/

section runs

variable {T : target γ} {entry memory size : Nat} {g : γ} {contents : Mem} {s : loop_state γ}

/-- A link from a live block to the block that one of its exits jumps to. -/
def Link (s : loop_state γ) (b b' : block γ) : Prop :=
  b ∈ s.live ∧ b' ∈ s.live ∧
    ∃ k ∈ b.tr.slots, leave_slot s.cache.mem (b.ptr + k.offset) = some (some b'.ptr)

theorem Link.lt (h : Sound s) {b b' : block γ} (hl : Link s b b') : b.ptr < b'.ptr := by
  obtain ⟨hb, -, k, hk, hjump⟩ := hl
  rcases leave_slot_spec h hb hk with ⟨hret, -⟩ | ⟨c, -, hc, -, hlt, -⟩
  · rw [hret] at hjump
    simp at hjump
  · rw [hc] at hjump
    simp only [Option.some.injEq] at hjump
    omega

/-- Links only go up in the area. -/
theorem links_acyclic (h : Sound s) (b : block γ) : ¬ Relation.TransGen (Link s) b b := by
  have hup : ∀ {b b'}, Relation.TransGen (Link s) b b' → b.ptr < b'.ptr := by
    intro b b' hpath
    induction hpath with
    | single hl => exact hl.lt h
    | tail _ hl ih => exact ih.trans (hl.lt h)
  intro hcycle
  exact lt_irrefl _ (hup hcycle)

/-- The cache that the loop starts with. -/
theorem sound_init (T : target γ) (links : Bool) (entry : Nat) (g : γ) (contents : Mem)
    (hmem : memory ≠ 0) (hsize : MIN_CACHE_SIZE ≤ size) (hspace : memory + size ≤ 2 ^ 64)
    (hentry : entry < 2 ^ 64) :
    Sound (loop_common T links entry g memory size contents).init ∧
      LinkOk (loop_common T links entry g memory size contents).init := by
  have hmin : sizeof_internal_cache + (JIT_BUFFER_SIZE + sizeof_tb) ≤ MIN_CACHE_SIZE := by decide
  refine ⟨⟨?_, by simp [loop_common], List.Pairwise.nil, by simp [loop_common], ?_, hentry,
    by simp [loop_common], by simp [loop_common]⟩, fun hne => absurd rfl hne⟩
  · refine represents_reset ?_ ?_
    · simp only [init_acache]
      omega
    · simp only [init_acache]
      omega
  · simp only [loop_common, reset, init_acache]
    omega

variable {ok : loop_state γ → Unit → Prop} {links : Bool}

/-- Every run keeps the links sound. -/
theorem reach_sound (hmem : memory ≠ 0) (hsize : MIN_CACHE_SIZE ≤ size)
    (hspace : memory + size ≤ 2 ^ 64) (hentry : entry < 2 ^ 64)
    (h : (loop_common T links entry g memory size contents).Reach ok s) : Sound s ∧ LinkOk s := by
  induction h with
  | init => exact sound_init T links entry g contents hmem hsize hspace hentry
  | step _ _ hstep ih => exact iterate_sound ih.1 ih.2 hstep

theorem reach_unlinked {r r' : loop_state γ}
    (h : (loop_common T false entry g memory size contents).Reach (fun _ _ => True) r)
    (hstar : Relation.ReflTransGen (unlinked_round T) r r') :
    (loop_common T false entry g memory size contents).Reach (fun _ _ => True) r' := by
  induction hstar with
  | refl => exact h
  | tail _ hstep ih => exact .step (l := ()) ih trivial hstep

/-- Along a run of quiet rounds there is a run of the loop without links. -/
theorem reach_mirrors (hmem : memory ≠ 0) (hsize : MIN_CACHE_SIZE ≤ size)
    (hspace : memory + size ≤ 2 ^ 64) (hentry : entry < 2 ^ 64)
    (h : (loop_common T true entry g memory size contents).Reach (fun s _ => quiet_round T s) s) :
    ∃ r, (loop_common T false entry g memory size contents).Reach (fun _ _ => True) r ∧
      Mirrors s r := by
  induction h with
  | init =>
    have hinit := sound_init T false entry g contents hmem hsize hspace hentry
    exact ⟨_, .init, ⟨⟨hinit.1, rfl, rfl, rfl, rfl, rfl, rfl⟩, rfl, rfl, rfl, rfl⟩⟩
  | step hreach hq hstep ih =>
    obtain ⟨r, hr, hm⟩ := ih
    obtain ⟨hs, hlink⟩ := reach_sound hmem hsize hspace hentry hreach
    obtain ⟨r', hstar, hm'⟩ := iterate_mirrors hs hlink hm hq hstep
    exact ⟨r', reach_unlinked hr hstar, hm'⟩

/-- Block linking. In every run a patched exit of a live block jumps to the start of
    the live block whose guest pc is the value of the exit, the links have no
    cycle, and a live block that is executed returns. When no round executes a
    block that asks for the loop and leaves by a patched exit, the blocks entered
    are those of the loop that never calls `patch`. -/
theorem block_linking_sound (hmem : memory ≠ 0) (hsize : MIN_CACHE_SIZE ≤ size)
    (hspace : memory + size ≤ 2 ^ 64) (hentry : entry < 2 ^ 64)
    (h : (loop_common T true entry g memory size contents).Reach (fun _ _ => True) s) :
    (∀ b ∈ s.live, ∀ k ∈ b.tr.slots, s.cache.mem (b.ptr + k.offset) ≠ 0xc3 →
      ∃ b' ∈ s.live, leave_slot s.cache.mem (b.ptr + k.offset) = some (some b'.ptr) ∧
        b'.pc = k.value) ∧
    (∀ b, ¬ Relation.TransGen (Link s) b b) ∧
    (∀ b ∈ s.live, ∀ g', ∃ res,
      execute T s.live s.cache.mem s.live.length b.ptr g' = some res) ∧
    ((loop_common T true entry g memory size contents).Reach (fun s _ => quiet_round T s) s →
      ∃ r, (loop_common T false entry g memory size contents).Reach (fun _ _ => True) r ∧
        entered r.log = entered s.log ∧ r.guest = s.guest ∧ r.currentPc = s.currentPc) := by
  obtain ⟨hs, -⟩ := reach_sound hmem hsize hspace hentry h
  refine ⟨?_, links_acyclic hs, ?_, ?_⟩
  · intro b hb k hk hpatched
    rcases leave_slot_spec hs hb hk with ⟨-, hret⟩ | ⟨b', hb', hjump, -, -, hpc⟩
    · exact absurd hret hpatched
    · exact ⟨b', hb', hjump, hpc⟩
  · intro b hb g'
    obtain ⟨res, hres, -⟩ := execute_returns (T := T) hs hb g' (above_le _ _)
    exact ⟨res, hres⟩
  · intro hquiet
    obtain ⟨r, hr, hm⟩ := reach_mirrors hmem hsize hspace hentry hquiet
    exact ⟨r, hr, hm.entered, hm.guest, hm.currentPc⟩

end runs

/-! ## A guest that exits -/

section svc

open Jitter.X86_64 (gen_exit_sequence gen_move_reg_low gen_lea_rdx)

/-- The code of an exit to a constant, which starts with a move of the constant. -/
def exit_code (value : Nat) : List UInt8 :=
  [0x49, 0xb8] ++ le 8 value ++ gen_exit_sequence 0 true (List.replicate 8 0)

/-- A block that does `f` to the guest and leaves for a constant pc. -/
def constant_exit (value : Nat) (hvalue : value < 2 ^ 64) (f : Nat → Nat) : translation Nat where
  code := exit_code value
  slots := [⟨20, value⟩]
  run := fun g => ⟨f g, false, .through 0⟩
  size := by
    simp [exit_code, gen_exit_sequence, gen_move_reg_low, gen_lea_rdx, JIT_BUFFER_SIZE]
  in_code := by
    intro s hs
    obtain rfl := List.mem_singleton.mp hs
    exact ⟨rfl, rfl, rfl, rfl, rfl⟩
  apart := List.pairwise_singleton _ _
  value_lt := by
    intro s hs
    obtain rfl := List.mem_singleton.mp hs
    exact hvalue
  leaves := fun _ => Nat.one_pos

/-- Two guest instructions, `svc` at 0x1000 and a branch back to it. The guest counts
    the system calls that are left, the last of which is the exit. -/
def svc_loop : target Nat where
  isLooping := fun g => g ≠ 0
  disassemble := fun g pc =>
    (if pc = 0x1000 then constant_exit 0x1004 (by decide) (· - 1)
      else constant_exit 0x1000 (by decide) id, g)

def svc_runs (links : Bool) : Runs.System (loop_state Nat) Unit :=
  loop_common svc_loop links 0x1000 2 0x10000 MIN_CACHE_SIZE fun _ => 0

/-- Without links the loop stops at the test that follows the last system call. -/
theorem svc_unlinked {r : loop_state Nat} (h : (svc_runs false).Reach (fun _ _ => True) r) :
    (entered r.log).length ≤ 3 := by
  obtain ⟨r₁, r₂, r₃, h₁, h₂, h₃, hstop, hlen₁, hlen₂, hlen₃⟩ : ∃ r₁ r₂ r₃,
      iterate svc_loop false (svc_runs false).init = some r₁ ∧
      iterate svc_loop false r₁ = some r₂ ∧ iterate svc_loop false r₂ = some r₃ ∧
      iterate svc_loop false r₃ = none ∧ (entered r₁.log).length = 1 ∧
      (entered r₂.log).length = 2 ∧ (entered r₃.log).length = 3 :=
    ⟨_, _, _, rfl, rfl, rfl, rfl, rfl, rfl, rfl⟩
  have hall : r = (svc_runs false).init ∨ r = r₁ ∨ r = r₂ ∨ r = r₃ := by
    induction h with
    | init => exact .inl rfl
    | step _ _ hstep ih =>
      replace hstep : iterate svc_loop false _ = some _ := hstep
      rcases ih with rfl | rfl | rfl | rfl
      · exact .inr (.inl (Option.some.inj (hstep.symm.trans h₁)))
      · exact .inr (.inr (.inl (Option.some.inj (hstep.symm.trans h₂))))
      · exact .inr (.inr (.inr (Option.some.inj (hstep.symm.trans h₃))))
      · rw [hstop] at hstep
        cases hstep
  rcases hall with rfl | rfl | rfl | rfl
  · exact Nat.zero_le _
  · omega
  · omega
  · omega

/-- A run in which the exit of the `svc` gets linked. -/
theorem svc_linked_once : ∃ s, (svc_runs true).Reach (fun s _ => quiet_round svc_loop s) s ∧
    s.linked.length = 1 ∧ ∃ r, (svc_runs false).Reach (fun _ _ => True) r ∧
      entered r.log = [(0x1000, 2), (0x1004, 1)] := by
  obtain ⟨s, hq, hl, he⟩ : ∃ s, (svc_runs true).Reach (fun s _ => quiet_round svc_loop s) s ∧
      s.linked.length = 1 ∧ entered s.log = [(0x1000, 2), (0x1004, 1)] := by
    refine ⟨_, .step (.step .init (l := ()) ?_ rfl) (l := ()) ?_ rfl, rfl, rfl⟩
    · intro _ b hb
      exact absurd hb List.not_mem_nil
    · intro _ b hb hpc
      obtain rfl := List.mem_singleton.mp hb
      exact absurd hpc (by decide)
  have hany := hq.mono (fun _ _ _ => trivial)
  obtain ⟨-, -, -, hsame⟩ :=
    block_linking_sound (by decide) (by decide) (by decide) (by decide) hany
  obtain ⟨r, hr, hent, -⟩ := hsame hq
  exact ⟨s, hq, hl, r, hr, hent.trans he⟩

/-- The second `svc` leaves by its patched exit, and the block behind it is entered
    although the guest has stopped. The loop without links never enters it there. -/
theorem svc_enters_one_more : ∃ s, (svc_runs true).Reach (fun _ _ => True) s ∧
    ∀ r, (svc_runs false).Reach (fun _ _ => True) r → entered r.log ≠ entered s.log := by
  obtain ⟨s, hs, hent⟩ : ∃ s, (svc_runs true).Reach (fun _ _ => True) s ∧
      entered s.log = [(0x1000, 2), (0x1004, 1), (0x1000, 1), (0x1004, 0)] :=
    ⟨_, .step (.step (.step .init (l := ()) trivial rfl) (l := ()) trivial rfl) (l := ())
      trivial rfl, rfl⟩
  refine ⟨s, hs, ?_⟩
  intro r hr hsame
  have hlen := svc_unlinked hr
  rw [hsame, hent] at hlen
  exact absurd hlen (by decide)

end svc

end Umeq.Loop
