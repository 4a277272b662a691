import Mathlib.Data.List.Nodup
import Mathlib.Logic.Function.Iterate
import Umeq.Lib.AddWithCarry
import Umeq.Lib.Runs

/-! # IT blocks

    An IT instruction makes up to four Thumb instructions after it conditional. The state of
    such a block is known to the disassembler while it translates (`disa_itstate`), and the
    emitted code writes it to `reg_itstate`, so that a block of the cache that starts inside
    an IT block can be translated. The cache is looked up by the pc alone.

    The instructions themselves are a parameter: what one does to the guest and where it goes.
    `it_blocks_followed` says that the emulator follows the architecture for the programs in
    which each instruction is met with one ITSTATE only and no IT instruction is met inside an
    IT block.
-/

namespace Umeq.Arm

open AddWithCarry (and_bit shift_bit)

/-! ## The architecture -/

/-- `ConditionPassed()`, with the flags N, Z, C and V in the upper bits of `cpsr`. -/
def ConditionPassed (cond : BitVec 4) (cpsr : BitVec 32) : Bool :=
  let n := cpsr.getLsbD 31
  let z := cpsr.getLsbD 30
  let c := cpsr.getLsbD 29
  let v := cpsr.getLsbD 28
  let result := match (cond >>> 1).toNat with
    | 0 => z
    | 1 => c
    | 2 => n
    | 3 => v
    | 4 => c && !z
    | 5 => n == v
    | 6 => n == v && !z
    | _ => true
  if cond.getLsbD 0 && cond ≠ 15 then !result else result

/-- `InITBlock()`. -/
def InITBlock (itstate : BitVec 8) : Bool := itstate.extractLsb' 0 4 ≠ 0

/-- `ITAdvance()`. -/
def ITAdvance (itstate : BitVec 8) : BitVec 8 :=
  if itstate.extractLsb' 0 3 = 0 then 0
  else itstate.extractLsb' 5 3 ++ (itstate.extractLsb' 0 5 <<< 1)

/-- An instruction other than IT: its size, whether it ends a block when it is translated, and
    what it does. Inside an IT block a 16-bit instruction leaves the flags alone, so the effect
    depends on that. It gives the next pc when it branches. -/
structure operation (G : Type) where
  wide : Bool
  is_exit : Bool
  effect : Bool → G → G × Option Nat
  leaves : is_exit = true → ∀ inIt g, ((effect inIt g).2).isSome

inductive thumb_insn (G : Type) where
  /-- An IT instruction with `INSN(7, 0)`. -/
  | it (imm8 : BitVec 8)
  | op (o : operation G)

def thumb_insn.size {G : Type} : thumb_insn G → Nat
  | .it _ => 2
  | .op o => if o.wide then 4 else 2

/-- A program, with the flags of the state of the guest. -/
structure thumb_program (G : Type) where
  insn : Nat → thumb_insn G
  cpsr : G → BitVec 32

/-- The log has the instructions that were met, and whether they took effect. -/
structure arch_state (G : Type) where
  pc : Nat
  guest : G
  itstate : BitVec 8
  log : List (Nat × Bool)

section arch

variable {G : Type} (P : thumb_program G)

/-- The instruction at the pc, when its condition holds. -/
def arch_execute (s : arch_state G) : arch_state G :=
  let insn := P.insn s.pc
  let log := s.log ++ [(s.pc, true)]
  match insn with
  | .it imm8 => ⟨s.pc + insn.size, s.guest, imm8, log⟩
  | .op o =>
    let r := o.effect (InITBlock s.itstate) s.guest
    ⟨r.2.getD (s.pc + insn.size), r.1,
      if InITBlock s.itstate then ITAdvance s.itstate else s.itstate, log⟩

def arch_step (s : arch_state G) : arch_state G :=
  if InITBlock s.itstate && !ConditionPassed (s.itstate.extractLsb' 4 4) (P.cpsr s.guest) then
    ⟨s.pc + (P.insn s.pc).size, s.guest, ITAdvance s.itstate, s.log ++ [(s.pc, false)]⟩
  else arch_execute P s

/-- The state after `n` instructions. -/
def arch_run (s : arch_state G) (n : Nat) : arch_state G := (arch_step P)^[n] s

end arch

/-! ## The disassembler -/

def inItBlock (disa_itstate : BitVec 32) : Bool := disa_itstate &&& 0xf ≠ 0

def nextItState (disa_itstate : BitVec 32) : BitVec 32 :=
  if disa_itstate &&& 0x7 = 0 then 0
  else (disa_itstate &&& 0xe0) ||| ((disa_itstate <<< 1) &&& 0x1f)

/-- The predicate is zero when the condition holds. There is none for the conditions 14 and 15,
    which raise a signal. -/
def arm_hlp_compute_flags_pred (cond cpsr : BitVec 32) : Option Nat :=
  let pred : Option Nat := match (cond >>> 1).toNat with
    | 0 => some (if cpsr &&& 0x40000000 ≠ 0 then 0 else 1)
    | 1 => some (if cpsr &&& 0x20000000 ≠ 0 then 0 else 1)
    | 2 => some (if cpsr &&& 0x80000000 ≠ 0 then 0 else 1)
    | 3 => some (if cpsr &&& 0x10000000 ≠ 0 then 0 else 1)
    | 4 => some (if cpsr &&& 0x20000000 ≠ 0 ∧ ¬ cpsr &&& 0x40000000 ≠ 0 then 0 else 1)
    | 5 => some (if (cpsr >>> 31) &&& 1#32 = (cpsr >>> 28) &&& 1#32 then 0 else 1)
    | 6 => some (if (cpsr >>> 30) &&& 1#32 = 0#32 ∧ (cpsr >>> 31) &&& 1#32 = (cpsr >>> 28) &&& 1#32
        then 0 else 1)
    | _ => none
  pred.map fun pred => if cond &&& 1#32 ≠ 0#32 then 1 - pred else pred

/-- The code of one instruction: where it is, the instruction, and the state of the IT block
    for which it was translated. -/
structure translated (G : Type) where
  pc : Nat
  insn : thumb_insn G
  disa_itstate : BitVec 32

/-- A block of the cache: the instructions, and the pc to which it goes when it comes to its
    end. -/
structure thumb_block (G : Type) where
  code : List (translated G)
  exit_pc : Nat

/-- `disa_itstate` after an instruction. -/
def disa_advance {G : Type} (insn : thumb_insn G) (disa_itstate : BitVec 32) : BitVec 32 :=
  let inIt := inItBlock disa_itstate
  let disa_itstate := match insn with
    | .it imm8 => imm8.setWidth 32
    | .op _ => disa_itstate
  if inIt then nextItState disa_itstate else disa_itstate

def thumb_insn.isExit {G : Type} : thumb_insn G → Bool
  | .it _ => false
  | .op o => o.is_exit

/-- The loop of `disassemble_thumb`, for at most `maxInsn` instructions. -/
def disassemble_thumb {G : Type} (P : thumb_program G) :
    Nat → Nat → BitVec 32 → thumb_block G
  | 0, pc, _ => ⟨[], pc⟩
  | maxInsn + 1, pc, disa_itstate =>
    let insn := P.insn pc
    let item : translated G := ⟨pc, insn, disa_itstate⟩
    if insn.isExit then ⟨[item], pc + insn.size⟩
    else
      let rest := disassemble_thumb P maxInsn (pc + insn.size) (disa_advance insn disa_itstate)
      ⟨item :: rest.code, rest.exit_pc⟩

/-! ## The emitted code -/

/-- What blocks change. -/
structure thumb_state (G : Type) where
  guest : G
  reg_itstate : BitVec 32
  log : List (Nat × Bool)

section code

variable {G : Type} (P : thumb_program G)

/-- The instruction itself: the next state, and the pc when it leaves the block. -/
def execute_insn (t : translated G) (s : thumb_state G) : thumb_state G × Option Nat :=
  let log := s.log ++ [(t.pc, true)]
  match t.insn with
  | .it imm8 => (⟨s.guest, imm8.setWidth 32, log⟩, none)
  | .op o =>
    let r := o.effect (inItBlock t.disa_itstate) s.guest
    (⟨r.1, s.reg_itstate, log⟩, r.2)

/-- The code of one instruction. Inside an IT block the predicate comes first, and the block is
    left when the condition does not hold. `none` when a signal is raised. -/
def execute_translated (t : translated G) (s : thumb_state G) : Option (thumb_state G × Option Nat) :=
  if inItBlock t.disa_itstate then
    (arm_hlp_compute_flags_pred (t.disa_itstate >>> 4) (P.cpsr s.guest)).map fun pred =>
      let s := { s with reg_itstate := nextItState t.disa_itstate }
      if pred ≠ 0 then ({ s with log := s.log ++ [(t.pc, false)] }, some (t.pc + t.insn.size))
      else execute_insn t s
  else some (execute_insn t s)

/-- A block, up to where it is left. -/
def execute_code (exit_pc : Nat) : List (translated G) → thumb_state G → Option (thumb_state G × Nat)
  | [], s => some (s, exit_pc)
  | t :: ts, s =>
    match execute_translated P t s with
    | none => none
    | some (s, some pc) => some (s, pc)
    | some (s, none) => execute_code exit_pc ts s

/-! ## The main loop -/

/-- The main loop between two blocks. -/
structure loop_state (G : Type) where
  pc : Nat
  state : thumb_state G
  cache : Nat → Option (thumb_block G)

/-- One turn: the block of the cache that starts at the pc, or a new one. Before that the cache
    may lose the blocks that do not satisfy `kept`. -/
def loop_turn (max_insn : Nat) (s : loop_state G) (kept : Nat → Bool) : Option (loop_state G) :=
  let cache := fun pc => if kept pc then s.cache pc else none
  let block := (cache s.pc).getD (disassemble_thumb P max_insn s.pc s.state.reg_itstate)
  (execute_code P block.exit_pc block.code s.state).map fun r =>
    ⟨r.2, r.1, Function.update cache s.pc (some block)⟩

/-- A program is entered outside an IT block. -/
def thumb_runs (max_insn entry : Nat) (guest : G) : Runs.System (loop_state G) (Nat → Bool) where
  init := ⟨entry, ⟨guest, 0, []⟩, fun _ => none⟩
  exec := loop_turn P max_insn

def arch_init (entry : Nat) (guest : G) : arch_state G := ⟨entry, guest, 0, []⟩

end code

/-! ## The state of an IT block in both -/

theorem inItBlock_setWidth (it : BitVec 8) : inItBlock (it.setWidth 32) = InITBlock it := by
  revert it
  decide +kernel

theorem nextItState_setWidth (it : BitVec 8) :
    nextItState (it.setWidth 32) = (ITAdvance it).setWidth 32 := by
  revert it
  decide +kernel

theorem condition_setWidth (it : BitVec 8) :
    it.setWidth 32 >>> 4 = (it.extractLsb' 4 4).setWidth 32 := by
  revert it
  decide +kernel

/-- The helper decides as the architecture does, for the conditions that it knows. -/
theorem flags_pred_eq (cond : BitVec 4) (cpsr : BitVec 32) :
    arm_hlp_compute_flags_pred (cond.setWidth 32) cpsr =
      if cond.toNat < 14 then some (if ConditionPassed cond cpsr then 0 else 1) else none := by
  have hz : cpsr &&& 0x40000000 ≠ 0 ↔ cpsr.getLsbD 30 = true := and_bit cpsr 30
  have hc : cpsr &&& 0x20000000 ≠ 0 ↔ cpsr.getLsbD 29 = true := and_bit cpsr 29
  have hn : cpsr &&& 0x80000000 ≠ 0 ↔ cpsr.getLsbD 31 = true := and_bit cpsr 31
  have hv : cpsr &&& 0x10000000 ≠ 0 ↔ cpsr.getLsbD 28 = true := and_bit cpsr 28
  unfold arm_hlp_compute_flags_pred ConditionPassed
  simp only [hz, hc, hn, hv, shift_bit]
  -- what is left depends on the condition and on four flags
  generalize cpsr.getLsbD 31 = n
  generalize cpsr.getLsbD 30 = z
  generalize cpsr.getLsbD 29 = c
  generalize cpsr.getLsbD 28 = v
  revert n z c v cond
  decide +kernel

/-! ## Following the architecture -/

section follows

variable {G : Type} (P : thumb_program G)

/-- No instruction is met with two states of an IT block. -/
def OneItstate (a : arch_state G) : Prop :=
  ∀ n k, (arch_run P a n).pc = (arch_run P a k).pc →
    (arch_run P a n).itstate = (arch_run P a k).itstate

/-- No IT instruction is met inside an IT block. -/
def NoNestedIt (a : arch_state G) : Prop :=
  ∀ n imm8, P.insn (arch_run P a n).pc = .it imm8 → InITBlock (arch_run P a n).itstate = false

/-- The emulator is where the architecture is. -/
structure At (a : arch_state G) (pc : Nat) (s : thumb_state G) : Prop where
  pc : a.pc = pc
  guest : a.guest = s.guest
  itstate : s.reg_itstate = a.itstate.setWidth 32
  log : a.log = s.log

/-- The emulator has done what the architecture does in some number of instructions. -/
def Follows (a : arch_state G) (s : loop_state G) : Prop := ∃ n, At (arch_run P a n) s.pc s.state

/-- The blocks of the cache were translated for the states with which they are met. -/
def CacheMet (max_insn : Nat) (a : arch_state G) (cache : Nat → Option (thumb_block G)) : Prop :=
  ∀ pc b, cache pc = some b → ∃ n, (arch_run P a n).pc = pc ∧
    b = disassemble_thumb P max_insn pc ((arch_run P a n).itstate.setWidth 32)

variable {P} {a : arch_state G} {pc : Nat} {s s' : thumb_state G} {next : Option Nat}

/-- The instruction itself does what it does in the architecture, and the disassembler goes on
    with the next state of the IT block. -/
theorem execute_insn_at (hpc : a.pc = pc) (hguest : a.guest = s.guest) (hlog : a.log = s.log)
    (hreg : s.reg_itstate = (if InITBlock a.itstate then ITAdvance a.itstate else a.itstate).setWidth 32)
    (hnested : ∀ imm8, P.insn pc = .it imm8 → InITBlock a.itstate = false) :
    At (arch_execute P a)
        ((execute_insn ⟨pc, P.insn pc, a.itstate.setWidth 32⟩ s).2.getD (pc + (P.insn pc).size))
        (execute_insn ⟨pc, P.insn pc, a.itstate.setWidth 32⟩ s).1 ∧
      disa_advance (P.insn pc) (a.itstate.setWidth 32) = (arch_execute P a).itstate.setWidth 32 := by
  subst hpc
  rcases hinsn : P.insn a.pc with imm8 | o
  · have hout := hnested imm8 hinsn
    simp only [arch_execute, execute_insn, disa_advance, hinsn, inItBlock_setWidth, hout]
    refine ⟨⟨rfl, hguest, rfl, ?_⟩, rfl⟩
    rw [hlog]
  · simp only [arch_execute, execute_insn, disa_advance, hinsn, inItBlock_setWidth, hguest]
    refine ⟨⟨rfl, rfl, hreg, ?_⟩, ?_⟩
    · rw [hlog]
    · rw [nextItState_setWidth]
      split_ifs <;> rfl

/-- The code of one instruction, translated for the state of the IT block that the architecture
    has there. -/
theorem execute_translated_at (hat : At a pc s)
    (hnested : ∀ imm8, P.insn pc = .it imm8 → InITBlock a.itstate = false)
    (hexec : execute_translated P ⟨pc, P.insn pc, a.itstate.setWidth 32⟩ s = some (s', next)) :
    At (arch_step P a) (next.getD (pc + (P.insn pc).size)) s' ∧
      (next = none → disa_advance (P.insn pc) (a.itstate.setWidth 32) =
        (arch_step P a).itstate.setWidth 32) := by
  unfold execute_translated at hexec
  simp only [inItBlock_setWidth, condition_setWidth, nextItState_setWidth] at hexec
  by_cases hin : InITBlock a.itstate
  · rw [if_pos hin, flags_pred_eq] at hexec
    obtain ⟨pred, hpred, hexec⟩ := Option.map_eq_some_iff.mp hexec
    split_ifs at hpred with hknown hpassed
    · -- the condition holds
      obtain rfl := Option.some.inj hpred
      have hstep : arch_step P a = arch_execute P a := by
        simp [arch_step, hat.guest, hpassed]
      rw [if_neg (by simp)] at hexec
      obtain ⟨hafter, hdisa⟩ := execute_insn_at (s := { s with reg_itstate := (ITAdvance a.itstate).setWidth 32 })
        hat.pc hat.guest hat.log (by rw [if_pos hin]) hnested
      rw [hexec] at hafter
      rw [hstep]
      exact ⟨hafter, fun _ => hdisa⟩
    · -- the instruction is skipped, and the block is left
      obtain rfl := Option.some.inj hpred
      have hstep : arch_step P a =
          ⟨a.pc + (P.insn a.pc).size, a.guest, ITAdvance a.itstate, a.log ++ [(a.pc, false)]⟩ := by
        simp [arch_step, hat.guest, hpassed, hin]
      rw [if_pos (by simp), Prod.mk.injEq] at hexec
      obtain ⟨rfl, rfl⟩ := hexec
      rw [hstep, hat.pc]
      refine ⟨⟨rfl, hat.guest, rfl, ?_⟩, fun h => by cases h⟩
      rw [hat.log]
  · have hstep : arch_step P a = arch_execute P a := by
      simp [arch_step, hin]
    rw [if_neg hin] at hexec
    obtain ⟨hafter, hdisa⟩ := execute_insn_at hat.pc hat.guest hat.log
      (by rw [if_neg hin]; exact hat.itstate) hnested
    rw [Option.some.inj hexec] at hafter
    rw [hstep]
    exact ⟨hafter, fun _ => hdisa⟩

/-- A block that was translated for the state that the architecture has at its start. -/
theorem execute_code_at {max_insn n : Nat} (hnested : NoNestedIt P a)
    (hat : At (arch_run P a n) pc s) {pc' : Nat}
    (hexec : execute_code P
      (disassemble_thumb P max_insn pc ((arch_run P a n).itstate.setWidth 32)).exit_pc
      (disassemble_thumb P max_insn pc ((arch_run P a n).itstate.setWidth 32)).code s = some (s', pc')) :
    ∃ k, At (arch_run P a k) pc' s' := by
  induction max_insn generalizing n pc s with
  | zero =>
    simp only [disassemble_thumb, execute_code, Option.some.injEq, Prod.mk.injEq] at hexec
    obtain ⟨rfl, rfl⟩ := hexec
    exact ⟨n, hat⟩
  | succ max_insn ih =>
    have hnext : arch_step P (arch_run P a n) = arch_run P a (n + 1) :=
      (Function.iterate_succ_apply' (arch_step P) n a).symm
    have hin : ∀ imm8, P.insn pc = .it imm8 → InITBlock (arch_run P a n).itstate = false := by
      intro imm8 hinsn
      exact hnested n imm8 (hat.pc ▸ hinsn)
    rw [disassemble_thumb] at hexec
    dsimp only at hexec
    -- the first instruction, and what the block does after it
    rcases hfirst : execute_translated P ⟨pc, P.insn pc, (arch_run P a n).itstate.setWidth 32⟩ s
      with _ | ⟨s₁, _ | target⟩
    · split_ifs at hexec <;> simp [execute_code, hfirst] at hexec
    · obtain ⟨hat₁, hdisa⟩ := execute_translated_at hat hin hfirst
      rw [hnext] at hat₁ hdisa
      split_ifs at hexec with hexit
      · simp only [execute_code, hfirst, Option.some.injEq, Prod.mk.injEq] at hexec
        obtain ⟨rfl, rfl⟩ := hexec
        exact ⟨n + 1, hat₁⟩
      · simp only [execute_code, hfirst] at hexec
        rw [hdisa rfl] at hexec
        exact ih hat₁ hexec
    · obtain ⟨hat₁, -⟩ := execute_translated_at hat hin hfirst
      rw [hnext] at hat₁
      have hleft : s' = s₁ ∧ pc' = target := by
        split_ifs at hexec <;> simp only [execute_code, hfirst, Option.some.injEq, Prod.mk.injEq] at hexec
          <;> exact ⟨hexec.1.symm, hexec.2.symm⟩
      obtain ⟨rfl, rfl⟩ := hleft
      exact ⟨n + 1, hat₁⟩

theorem loop_turn_follows {max_insn : Nat} {l l' : loop_state G} {kept : Nat → Bool}
    (hone : OneItstate P a) (hnested : NoNestedIt P a) (hfollows : Follows P a l)
    (hcache : CacheMet P max_insn a l.cache) (hturn : loop_turn P max_insn l kept = some l') :
    Follows P a l' ∧ CacheMet P max_insn a l'.cache := by
  obtain ⟨n, hat⟩ := hfollows
  obtain ⟨⟨s', pc'⟩, hexec, rfl⟩ := Option.map_eq_some_iff.mp hturn
  -- a block that is reused was translated for the same state
  have hblock : ((if kept l.pc then l.cache l.pc else none).getD
      (disassemble_thumb P max_insn l.pc l.state.reg_itstate)) =
      disassemble_thumb P max_insn l.pc ((arch_run P a n).itstate.setWidth 32) := by
    rcases hlookup : (if kept l.pc then l.cache l.pc else none) with _ | b
    · rw [Option.getD_none, hat.itstate]
    · rw [Option.getD_some]
      split_ifs at hlookup
      obtain ⟨k, hpc, rfl⟩ := hcache l.pc b hlookup
      rw [hone k n (hpc.trans hat.pc.symm)]
  dsimp only at hexec ⊢
  rw [hblock] at hexec
  refine ⟨execute_code_at hnested hat hexec, ?_⟩
  intro pc b hb
  by_cases hpc : pc = l.pc
  · subst hpc
    rw [Function.update_self, Option.some.injEq] at hb
    exact ⟨n, hat.pc, hb.symm.trans hblock⟩
  · rw [Function.update_of_ne hpc] at hb
    split_ifs at hb
    exact hcache pc b hb

end follows

/-- For the programs in which each instruction is met with one state of an IT block and no IT
    instruction is met inside an IT block, whatever the size of the blocks and however long
    they stay in the cache: what the emulator has done when it enters a block is what the
    architecture does, and `reg_itstate` is the ITSTATE. -/
theorem it_blocks_followed {G : Type} (P : thumb_program G) (max_insn entry : Nat) (guest : G)
    (hone : OneItstate P (arch_init entry guest)) (hnested : NoNestedIt P (arch_init entry guest))
    (l : loop_state G) (h : (thumb_runs P max_insn entry guest).Reach (fun _ _ => True) l) :
    Follows P (arch_init entry guest) l := by
  have hinv : Follows P (arch_init entry guest) l ∧ CacheMet P max_insn (arch_init entry guest) l.cache := by
    induction h with
    | init =>
      refine ⟨⟨0, rfl, rfl, rfl, rfl⟩, ?_⟩
      intro pc b hb
      cases hb
    | step _ _ hexec ih => exact loop_turn_follows hone hnested ih.1 ih.2 hexec
  exact hinv.1

/-! ### Three programs -/

section programs

variable {G : Type} {P : thumb_program G} {a : arch_state G}

theorem arch_step_skip {s : arch_state G}
    (h : (InITBlock s.itstate && !ConditionPassed (s.itstate.extractLsb' 4 4) (P.cpsr s.guest)) = true) :
    arch_step P s =
      ⟨s.pc + (P.insn s.pc).size, s.guest, ITAdvance s.itstate, s.log ++ [(s.pc, false)]⟩ :=
  if_pos h

theorem arch_step_execute {s : arch_state G}
    (h : (InITBlock s.itstate && !ConditionPassed (s.itstate.extractLsb' 4 4) (P.cpsr s.guest)) = false) :
    arch_step P s = arch_execute P s :=
  if_neg (by simp only [h, Bool.false_eq_true, not_false_eq_true])

/-- The instructions that are met, with their ITSTATE. -/
theorem arch_run_mem {met : List (Nat × BitVec 8)} (hinit : (a.pc, a.itstate) ∈ met)
    (hstep : ∀ s : arch_state G, (s.pc, s.itstate) ∈ met →
      ((arch_step P s).pc, (arch_step P s).itstate) ∈ met) (n : Nat) :
    ((arch_run P a n).pc, (arch_run P a n).itstate) ∈ met := by
  induction n with
  | zero => exact hinit
  | succ n ih =>
    rw [arch_run, Function.iterate_succ_apply']
    exact hstep _ ih

theorem log_arch_execute (s : arch_state G) : (arch_execute P s).log = s.log ++ [(s.pc, true)] := by
  unfold arch_execute
  dsimp only
  split <;> rfl

theorem length_log (n : Nat) : (arch_run P a n).log.length = a.log.length + n := by
  induction n with
  | zero => rfl
  | succ n ih =>
    have hstep : ∀ s : arch_state G, (arch_step P s).log.length = s.log.length + 1 := by
      intro s
      unfold arch_step
      split_ifs
      · simp
      · simp [log_arch_execute]
    rw [arch_run, Function.iterate_succ_apply', hstep]
    exact congrArg (· + 1) ih

/-- A state of the loop that follows the architecture has the log of that many instructions. -/
theorem Follows.log_eq {l : loop_state G} (h : Follows P a l) (ha : a.log = []) :
    l.state.log = (arch_run P a l.state.log.length).log := by
  obtain ⟨n, hat⟩ := h
  have hlen := length_log (P := P) (a := a) n
  rw [hat.log, ha, List.length_nil, Nat.zero_add] at hlen
  rw [hlen, hat.log]

end programs

/-- An instruction that counts. -/
def counts : thumb_insn Nat := .op ⟨false, false, fun _ g => (g + 1, none), by simp⟩

def branch (target : Nat) : thumb_insn Nat := .op ⟨false, true, fun _ g => (g, some target), by simp⟩

/-- An IT block of one instruction, and a loop after it. -/
def one_it_block : thumb_program Nat where
  insn := fun pc => if pc = 1 then .it 0x08 else if pc = 3 then counts else branch 5
  cpsr := fun _ => 0

/-- The same, with a loop that goes back into the IT block. -/
def back_into_it_block : thumb_program Nat where
  insn := fun pc => if pc = 1 then .it 0x08 else if pc = 3 then counts else branch 3
  cpsr := fun _ => 0

/-- An IT block with an IT instruction in it; the flag Z is set. -/
def it_in_it_block : thumb_program Nat where
  insn := fun pc => if pc = 1 then .it 0x04 else if pc = 3 then .it 0x18 else if pc = 5 then counts
    else branch 7
  cpsr := fun _ => 0x40000000

/-- The conditions of the programs: EQ and NE, without and with the flag Z. -/
theorem skips_eq : (InITBlock 0x08 && !ConditionPassed ((0x08 : BitVec 8).extractLsb' 4 4) 0) = true := by
  decide

theorem skips_ne :
    (InITBlock 0x18 && !ConditionPassed ((0x18 : BitVec 8).extractLsb' 4 4) 0x40000000) = true := by
  decide

theorem passes_eq :
    (InITBlock 0x04 && !ConditionPassed ((0x04 : BitVec 8).extractLsb' 4 4) 0x40000000) = false := by
  decide

theorem advance_eq : ITAdvance 0x08 = 0 := by decide

theorem advance_ne : ITAdvance 0x18 = 0 := by decide

theorem outside (cpsr : BitVec 32) :
    (InITBlock 0 && !ConditionPassed ((0 : BitVec 8).extractLsb' 4 4) cpsr) = false := by
  rw [show InITBlock 0 = false by decide, Bool.false_and]

theorem one_it_block_met (n : Nat) : ((arch_run one_it_block (arch_init 1 0) n).pc,
    (arch_run one_it_block (arch_init 1 0) n).itstate) ∈ [(1, 0), (3, 0x08), (5, 0)] := by
  refine arch_run_mem (by decide) ?_ n
  rintro ⟨pc, guest, itstate, log⟩ hs
  simp only [List.mem_cons, Prod.mk.injEq, List.not_mem_nil, or_false] at hs
  obtain ⟨rfl, rfl⟩ | ⟨rfl, rfl⟩ | ⟨rfl, rfl⟩ := hs
  · rw [arch_step_execute (outside 0)]
    exact (by decide : ((3, 0x08) : Nat × BitVec 8) ∈ [(1, 0), (3, 0x08), (5, 0)])
  · rw [arch_step_skip skips_eq, advance_eq]
    simp [one_it_block, counts, thumb_insn.size]
  · rw [arch_step_execute (outside 0)]
    exact (by decide : ((5, 0) : Nat × BitVec 8) ∈ [(1, 0), (3, 0x08), (5, 0)])

theorem back_into_it_block_met (n : Nat) : ((arch_run back_into_it_block (arch_init 1 0) n).pc,
    (arch_run back_into_it_block (arch_init 1 0) n).itstate) ∈ [(1, 0), (3, 0x08), (3, 0), (5, 0)] := by
  refine arch_run_mem (by decide) ?_ n
  rintro ⟨pc, guest, itstate, log⟩ hs
  simp only [List.mem_cons, Prod.mk.injEq, List.not_mem_nil, or_false] at hs
  obtain ⟨rfl, rfl⟩ | ⟨rfl, rfl⟩ | ⟨rfl, rfl⟩ | ⟨rfl, rfl⟩ := hs
  · rw [arch_step_execute (outside 0)]
    exact (by decide : ((3, 0x08) : Nat × BitVec 8) ∈ [(1, 0), (3, 0x08), (3, 0), (5, 0)])
  · rw [arch_step_skip skips_eq, advance_eq]
    simp [back_into_it_block, counts, thumb_insn.size]
  · rw [arch_step_execute (outside 0)]
    exact (by decide : ((5, 0) : Nat × BitVec 8) ∈ [(1, 0), (3, 0x08), (3, 0), (5, 0)])
  · rw [arch_step_execute (outside 0)]
    exact (by decide : ((3, 0) : Nat × BitVec 8) ∈ [(1, 0), (3, 0x08), (3, 0), (5, 0)])

theorem it_in_it_block_met (n : Nat) : ((arch_run it_in_it_block (arch_init 1 0) n).pc,
    (arch_run it_in_it_block (arch_init 1 0) n).itstate) ∈ [(1, 0), (3, 0x04), (5, 0x18), (7, 0)] := by
  refine arch_run_mem (by decide) ?_ n
  rintro ⟨pc, guest, itstate, log⟩ hs
  simp only [List.mem_cons, Prod.mk.injEq, List.not_mem_nil, or_false] at hs
  obtain ⟨rfl, rfl⟩ | ⟨rfl, rfl⟩ | ⟨rfl, rfl⟩ | ⟨rfl, rfl⟩ := hs
  · rw [arch_step_execute (outside 0x40000000)]
    exact (by decide : ((3, 0x04) : Nat × BitVec 8) ∈ [(1, 0), (3, 0x04), (5, 0x18), (7, 0)])
  · rw [arch_step_execute passes_eq]
    exact (by decide : ((5, 0x18) : Nat × BitVec 8) ∈ [(1, 0), (3, 0x04), (5, 0x18), (7, 0)])
  · rw [arch_step_skip skips_ne, advance_ne]
    simp [it_in_it_block, counts, thumb_insn.size]
  · rw [arch_step_execute (outside 0x40000000)]
    exact (by decide : ((7, 0) : Nat × BitVec 8) ∈ [(1, 0), (3, 0x04), (5, 0x18), (7, 0)])

/-- The pcs of a list have one ITSTATE each. -/
theorem itstate_of_pc {l : List (Nat × BitVec 8)} (hl : (l.map Prod.fst).Nodup)
    {x y : Nat × BitVec 8} (hx : x ∈ l) (hy : y ∈ l) (hpc : x.1 = y.1) : x.2 = y.2 :=
  congrArg Prod.snd (List.inj_on_of_nodup_map hl hx hy hpc)

/-- An IT block that is cut after the IT instruction. -/
theorem one_it_block_followed : ∃ l, (thumb_runs one_it_block 1 1 0).Reach (fun _ _ => True) l ∧
    l.state.log = [(1, true), (3, false)] ∧ Follows one_it_block (arch_init 1 0) l := by
  have hone : OneItstate one_it_block (arch_init 1 0) := by
    intro n k hpc
    exact itstate_of_pc (by decide) (one_it_block_met n) (one_it_block_met k) hpc
  have hnested : NoNestedIt one_it_block (arch_init 1 0) := by
    intro n imm8 hinsn
    have hn := one_it_block_met n
    simp only [List.mem_cons, Prod.mk.injEq, List.not_mem_nil, or_false] at hn
    obtain ⟨hpc, hit⟩ | ⟨hpc, hit⟩ | ⟨hpc, hit⟩ := hn
    · rw [hit]
      decide
    · rw [hpc] at hinsn
      cases hinsn
    · rw [hpc] at hinsn
      cases hinsn
  have hreach : (thumb_runs one_it_block 1 1 0).Reach (fun _ _ => True) _ :=
    .step (.step .init (l := fun _ => true) trivial rfl) (l := fun _ => true) trivial rfl
  exact ⟨_, hreach, rfl, it_blocks_followed one_it_block 1 1 0 hone hnested _ hreach⟩

/-- Neither condition can be left out. A loop that goes back into an IT block gets the block of
    the cache that was translated for the first time, and an IT instruction in an IT block is
    taken for an instruction of it. -/
theorem it_conditions_needed :
    (¬ ∀ (P : thumb_program Nat) (max_insn entry guest : Nat) (l : loop_state Nat),
      NoNestedIt P (arch_init entry guest) →
      (thumb_runs P max_insn entry guest).Reach (fun _ _ => True) l →
        Follows P (arch_init entry guest) l) ∧
    (¬ ∀ (P : thumb_program Nat) (max_insn entry guest : Nat) (l : loop_state Nat),
      OneItstate P (arch_init entry guest) →
      (thumb_runs P max_insn entry guest).Reach (fun _ _ => True) l →
        Follows P (arch_init entry guest) l) := by
  constructor
  · intro h
    have hnested : NoNestedIt back_into_it_block (arch_init 1 0) := by
      intro n imm8 hinsn
      have hn := back_into_it_block_met n
      simp only [List.mem_cons, Prod.mk.injEq, List.not_mem_nil, or_false] at hn
      obtain ⟨hpc, hit⟩ | ⟨hpc, hit⟩ | ⟨hpc, hit⟩ | ⟨hpc, hit⟩ := hn
      · rw [hit]
        decide
      all_goals
        rw [hpc] at hinsn
        cases hinsn
    have hreach : (thumb_runs back_into_it_block 1 1 0).Reach (fun _ _ => True) _ :=
      .step (.step (.step (.step .init (l := fun _ => true) trivial rfl) (l := fun _ => true) trivial rfl)
        (l := fun _ => true) trivial rfl) (l := fun _ => true) trivial rfl
    have hlog : [(1, true), (3, false), (5, true), (3, false)] =
        (arch_run back_into_it_block (arch_init 1 0) 4).log := (h _ _ _ _ _ hnested hreach).log_eq rfl
    exact absurd hlog (by decide)
  · intro h
    have hone : OneItstate it_in_it_block (arch_init 1 0) := by
      intro n k hpc
      exact itstate_of_pc (by decide) (it_in_it_block_met n) (it_in_it_block_met k) hpc
    have hreach : (thumb_runs it_in_it_block 10 1 0).Reach (fun _ _ => True) _ :=
      .step .init (l := fun _ => true) trivial rfl
    have hlog : [(1, true), (3, true), (5, true), (7, true)] =
        (arch_run it_in_it_block (arch_init 1 0) 4).log := (h _ _ _ _ _ hone hreach).log_eq rfl
    exact absurd hlog (by decide)

end Umeq.Arm
