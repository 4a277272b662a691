import Umeq.Arm64.LoadStore

/-! # Pairs that are loaded again

    LDP of integer registers writes its first register before the second load. When that
    register is the base, a fault of the second load leaves nothing to find the pair with.
-/

namespace Umeq.Arm64

open Bytes Words X86 Places Jitter.X86_64 Jitter.X86_64.Guest

/-! ## Pairs that can be started again -/

/-- The first register of a pair, when it is not the base. -/
theorem base_of_x_writes {rt rn : BitVec 5} (h : ¬ (rt = rn ∧ rn ≠ 31)) {value : BitVec 64}
    {w : place × BitVec 64} (hw : w ∈ x_writes rt value) (c : arm64_registers) :
    (put w.1 w.2 c).x rn SP_REG = c.x rn SP_REG := by
  unfold x_writes at hw
  split_ifs at hw with h31
  · cases hw
  · obtain rfl := List.mem_singleton.mp hw
    have hne : rn ≠ rt := by
      rintro rfl
      exact h ⟨rfl, h31⟩
    simp [put, arm64_registers.x, SP_REG, Function.update_of_ne hne]

theorem restartable_pair {insn : BitVec 32} (hload : insn.getLsbD 22 = true)
    (h : ¬ (insn.extractLsb' 0 5 = insn.extractLsb' 5 5 ∧ insn.extractLsb' 5 5 ≠ 31)) :
    Restartable (dis_load_store_pair insn) := by
  rw [dis_load_pair_eq hload]
  apply restartable_multi_load lawful_put
  intro b pre x post hsteps e m w hw c
  -- before the second load there is the first one, or nothing
  cases pre with
  | nil => cases hw
  | cons y pre =>
    obtain ⟨rfl, hrest⟩ := List.cons.inj hsteps
    cases pre with
    | nil =>
      rw [written, List.flatMap_singleton] at hw
      exact base_of_x_writes h hw c
    | cons z pre =>
      have hlength := congrArg List.length hrest
      simp at hlength

/-- A place of a SIMD register. -/
def place.Simd : place → Prop
  | .x _ => False
  | .lsb _ | .msb _ => True

theorem simd_pair_written (insn : BitVec 32) (b : BitVec 64) (e : host_env) (m : Mem) :
    ∀ w ∈ written e m (simd_pair_steps insn b), w.1.Simd := by
  intro w hw
  unfold written simd_pair_steps scalar_step at hw
  split at hw
  all_goals
    simp only [List.flatMap_cons, List.flatMap_nil, List.append_nil, List.cons_append,
      List.nil_append, List.mem_cons, List.not_mem_nil, or_false] at hw
    rcases hw with rfl | rfl | rfl | rfl <;> trivial

/-- The base of a SIMD pair is no register of the pair. -/
theorem restartable_pair_simd {insn : BitVec 32} (hload : insn.getLsbD 22 = true) :
    Restartable (dis_load_store_pair_simd_vfp insn) := by
  have hlt := (insn.extractLsb' 30 2).isLt
  by_cases hopc : (insn.extractLsb' 30 2).toNat < 3
  · rw [dis_load_pair_simd_eq hload hopc]
    apply restartable_multi_load lawful_put
    intro b pre x post hsteps e m w hw c
    have hsimd : w.1.Simd := by
      apply simd_pair_written insn b e m
      rw [hsteps, written_append]
      exact List.mem_append_left _ hw
    obtain ⟨l, value⟩ := w
    cases l with
    | x i => exact hsimd.elim
    | lsb i | msb i => rfl
  · -- the opcode is not assigned
    have hk : (insn.extractLsb' 30 2).toNat = 3 := by omega
    intro e s s' hfault
    unfold dis_load_store_pair_simd_vfp at hfault
    simp [hk, assert_illegal_opcode, read_x] at hfault

/-! ## Pairs that cannot -/

section failing

variable (insn : BitVec 32)

/-- The bytes of a low address, in a register. -/
def pair_full : BitVec 64 := if insn.getLsbD 31 then 0x1010101010101010#64 else 0x10101010#64

/-- The address of the second register of a pair. -/
def pair_second (b : BitVec 64) : BitVec 64 := pair_address insn b + if insn.getLsbD 31 then 8 else 4

/-- Where the pair is, for a low base and for the base that is loaded there. -/
theorem pair_address_low : (pair_address insn 0x1000#64).toNat + 8 ≤ 0x1800 ∧
    (pair_second insn 0x1000#64).toNat + 8 ≤ 0x1800 ∧
    (pair_address insn 0x1000#64).toNat ≠ (pair_second insn 0x1000#64).toNat := by
  unfold pair_second pair_address pair_offset
  generalize insn.extractLsb' 15 7 = imm7
  cases insn.getLsbD 24 <;> cases insn.getLsbD 31 <;> revert imm7 <;> decide +kernel

theorem pair_address_high : 0x1800 ≤ (pair_address insn (pair_full insn)).toNat ∧
    0x1800 ≤ (pair_second insn (pair_full insn)).toNat := by
  unfold pair_second pair_address pair_offset pair_full
  generalize insn.extractLsb' 15 7 = imm7
  cases insn.getLsbD 24 <;> cases insn.getLsbD 31 <;> revert imm7 <;> decide +kernel

/-- What a register of the pair is loaded with. -/
def pair_loaded (e : host_env) (m : Mem) (address : BitVec 64) : BitVec 64 :=
  pair_value insn (merge (pair_width insn) (e.left address.toNat (pair_width insn))
    (BitVec.ofNat 64 (m.load address.toNat (pair_width insn).bytes)))

theorem pair_loaded_low (e : host_env) {address : BitVec 64} (h : address.toNat + 8 ≤ 0x1800) :
    pair_loaded insn e low_memory address = pair_full insn := by
  unfold pair_loaded pair_value pair_width pair_full
  cases insn.getLsbD 31
  · simp only [Bool.false_eq_true, if_false, merge, width.bytes]
    rw [load_low (by omega)]
    cases insn.getLsbD 30 <;> decide +kernel
  · simp only [if_true, merge_w64, width.bytes]
    rw [load_low (by omega)]
    decide +kernel

theorem pair_loaded_high (e : host_env) {address : BitVec 64} (h : 0x1800 ≤ address.toNat) :
    pair_loaded insn e low_memory address = 0#64 := by
  unfold pair_loaded pair_value pair_width
  rw [load_high h]
  cases insn.getLsbD 31
  · simp only [Bool.false_eq_true, if_false, merge, width.bytes]
    cases insn.getLsbD 30 <;> decide +kernel
  · simp only [if_true, merge_w64, width.bytes]
    decide +kernel

/-- The base after a pair whose first register it is. -/
def pair_final (rn : BitVec 5) (e : host_env) (m : Mem) (b : BitVec 64) : BitVec 64 :=
  if insn.getLsbD 23 then b + pair_offset insn
  else if insn.extractLsb' 10 5 = rn then pair_loaded insn e m (pair_second insn b)
  else pair_loaded insn e m (pair_address insn b)

section base

variable {insn} {rn : BitVec 5} (hrn : insn.extractLsb' 5 5 = rn) (hrt : insn.extractLsb' 0 5 = rn)
  (h31 : rn ≠ 31)
include hrt h31

theorem pair_first_writes (value : BitVec 64) :
    x_writes (insn.extractLsb' 0 5) value = [(.x rn, value)] := by
  rw [x_writes, hrt, if_neg h31]

include hrn

theorem pair_final_eq (e : host_env) (m : Mem) (b : BitVec 64) (c : arm64_registers) :
    (puts put (written e m (pair_steps insn b) ++ pair_back insn b) c).r rn =
      pair_final insn rn e m b := by
  have hwritten : written e m (pair_steps insn b) =
      (.x rn, pair_loaded insn e m (pair_address insn b)) ::
        x_writes (insn.extractLsb' 10 5) (pair_loaded insn e m (pair_second insn b)) := by
    rw [← List.singleton_append, ← pair_first_writes hrt h31]
    simp only [written, pair_steps, List.flatMap_cons, List.flatMap_nil, List.append_nil]
    rfl
  have hback : pair_back insn b =
      if insn.getLsbD 23 then [(.x rn, b + pair_offset insn)] else [] := by
    unfold pair_back pair_address
    rw [hrn]
    cases insn.getLsbD 24 <;> rfl
  rw [hwritten, hback, puts_append, puts_cons]
  unfold pair_final
  cases insn.getLsbD 23
  · simp only [Bool.false_eq_true, if_false, puts_nil]
    unfold x_writes
    by_cases hrt2 : insn.extractLsb' 10 5 = rn
    · rw [hrt2, if_neg h31, if_pos rfl]
      simp [put]
    · rw [if_neg hrt2]
      by_cases hzero : insn.extractLsb' 10 5 = 31
      · simp [hzero, put]
      · rw [if_neg hzero]
        simp [put, Function.update_of_ne (Ne.symm hrt2)]
  · simp [put]

omit hrn hrt h31 in
/-- The two bases lead to different ends. -/
theorem pair_final_ne (e : host_env) :
    pair_final insn rn e low_memory (pair_full insn) ≠ pair_final insn rn e low_memory 0x1000#64 := by
  have hfull : pair_full insn ≠ 0x1000#64 ∧ 0#64 ≠ pair_full insn := by
    unfold pair_full
    cases insn.getLsbD 31 <;> decide
  obtain ⟨hlow, hlow₂, -⟩ := pair_address_low insn
  obtain ⟨hhigh, hhigh₂⟩ := pair_address_high insn
  unfold pair_final
  cases insn.getLsbD 23
  · simp only [Bool.false_eq_true, if_false]
    by_cases hrt2 : insn.extractLsb' 10 5 = rn
    · rw [if_pos hrt2, if_pos hrt2, pair_loaded_high insn e hhigh₂, pair_loaded_low insn e hlow₂]
      exact hfull.2
    · rw [if_neg hrt2, if_neg hrt2, pair_loaded_high insn e hhigh, pair_loaded_low insn e hlow]
      exact hfull.2
  · rw [if_pos rfl, if_pos rfl]
    exact fun heq => hfull.1 (add_right_cancel heq)

/-- A fault of the second load has overwritten the base. -/
theorem not_restartable_pair (hload : insn.getLsbD 22 = true) :
    ¬ Restartable (dis_load_store_pair insn) := by
  rw [dis_load_pair_eq hload, hrn]
  let e : host_env := ⟨fun a _ => decide (a ≠ (pair_second insn 0x1000#64).toNat), fun _ _ => 0⟩
  let s : machine arm64_registers := ⟨⟨fun _ => 0x1000#64, fun _ => ⟨0, 0⟩⟩, low_memory⟩
  obtain ⟨hlow, -, hne⟩ := pair_address_low insn
  have hbase : s.context.x rn SP_REG = 0x1000#64 := by
    simp [s, arm64_registers.x, SP_REG]
  have hsteps : pair_steps insn (s.context.x rn SP_REG) =
      [⟨pair_width insn, pair_address insn 0x1000#64,
        fun value => x_writes (insn.extractLsb' 0 5) (pair_value insn value)⟩] ++
      ⟨pair_width insn, pair_second insn 0x1000#64,
        fun value => x_writes (insn.extractLsb' 10 5) (pair_value insn value)⟩ :: [] := by
    rw [hbase]
    rfl
  have hfaulted : puts put (written e s.mem [⟨pair_width insn, pair_address insn 0x1000#64,
      fun value => x_writes (insn.extractLsb' 0 5) (pair_value insn value)⟩]) s.context =
      put (.x rn) (pair_full insn) s.context := by
    change puts put (x_writes (insn.extractLsb' 0 5)
      (pair_loaded insn e low_memory (pair_address insn 0x1000#64)) ++ []) s.context = _
    rw [pair_first_writes hrt h31, pair_loaded_low insn e hlow]
    rfl
  have hbase' : (put (.x rn) (pair_full insn) s.context).x rn SP_REG = pair_full insn := by
    simp [put, arm64_registers.x, SP_REG]
  refine not_restartable_multi_load e s hsteps ?_ ?_ hfaulted ?_
  · intro y hy
    obtain rfl := List.mem_singleton.mp hy
    exact decide_eq_true hne
  · exact decide_eq_false (by simp)
  · intro heq
    have hr := congrArg (fun c : arm64_registers => c.r rn) heq
    simp only [pair_final_eq hrn hrt h31, hbase, hbase'] at hr
    exact pair_final_ne e hr

end base

end failing

/-- LDP of integer registers can be started again unless its first register is the base. -/
theorem restartable_pair_iff {insn : BitVec 32} (hload : insn.getLsbD 22 = true) :
    Restartable (dis_load_store_pair insn) ↔
      ¬ (insn.extractLsb' 0 5 = insn.extractLsb' 5 5 ∧ insn.extractLsb' 5 5 ≠ 31) :=
  ⟨fun hrestart h => not_restartable_pair rfl h.1 h.2 hload hrestart, restartable_pair hload⟩

end Umeq.Arm64
