import Umeq.Arm.ItBlocks

/-! # Transient state of a context

    While a block runs, the emitted code keeps two fields of the context: `helper_pc`, which
    is the pc of the instruction while it is in a helper and zero otherwise, and on arm
    `reg_itstate`. Code that runs to its end leaves both as the next block expects them.

    A signal may come between any two steps of the code. When its handler asks for another pc,
    the rest of the code is not executed, and the main loop starts a block with the fields as
    they are. `blocks_start_clean` says when they are clean.

    The programs are those of arm and of arm64. In the former each instruction has one ITSTATE,
    in the latter it is zero everywhere.
-/

namespace Umeq.Signal

open Umeq.Arm

/-! ## Emitted code -/

/-- What the code does to the fields. -/
inductive transient_op where
  | helper_pc (v : Nat)
  | itstate (v : BitVec 32)
  /-- Anything else, and the helpers themselves. -/
  | work
  /-- Leave the block for one of these places, or go on. -/
  | exit_cond (targets : Nat → Bool)
  /-- Leave the block for one of these places. -/
  | exit (targets : Nat → Bool)

/-- `mk_call_void`, `mk_call_32` and `mk_call_64`. -/
def mk_call (pc : Nat) : List transient_op := [.helper_pc pc, .work, .helper_pc 0]

/-- A part of what is emitted for an instruction. -/
inductive insn_part where
  | work
  /-- A call of a helper. -/
  | call
  | exit_cond (targets : Nat → Bool)

def insn_part.emit (pc : Nat) : insn_part → List transient_op
  | .work => [.work]
  | .call => mk_call pc
  | .exit_cond targets => [.exit_cond targets]

/-- An instruction as the fields see it. -/
structure insn_shape where
  size : Nat
  /-- `INSN(7, 0)` of an IT instruction. -/
  it : Option (BitVec 8)
  parts : List insn_part
  /-- Where it goes when it ends the block. -/
  exits : Option (Nat → Bool)

/-- The code of one instruction. Inside an IT block the predicate comes first. -/
def emit_insn (pc : Nat) (insn : insn_shape) (disa_itstate : BitVec 32) : List transient_op :=
  let pred := if inItBlock disa_itstate then
      mk_call pc ++ [.itstate (nextItState disa_itstate), .exit_cond (· == pc + insn.size)]
    else []
  let body := match insn.it with
    | some imm8 => [.itstate (imm8.setWidth 32)]
    | none => insn.parts.flatMap (insn_part.emit pc)
  pred ++ body

/-- `disa_itstate` after an instruction. -/
def insn_shape.advance (insn : insn_shape) (disa_itstate : BitVec 32) : BitVec 32 :=
  let inIt := inItBlock disa_itstate
  let disa_itstate := match insn.it with
    | some imm8 => imm8.setWidth 32
    | none => disa_itstate
  if inIt then nextItState disa_itstate else disa_itstate

/-- The code of a block. For `disassemble_arm` and `disassemble_arm64` there is no IT
    instruction, and `disa_itstate` is zero. -/
def emit_block (insn : Nat → insn_shape) : Nat → Nat → BitVec 32 → List transient_op
  | 0, pc, _ => [.exit (· == pc)]
  | maxInsn + 1, pc, disa_itstate =>
    emit_insn pc (insn pc) disa_itstate ++
      match (insn pc).exits with
      | some targets => [.exit targets]
      | none => emit_block insn maxInsn (pc + (insn pc).size) ((insn pc).advance disa_itstate)

/-- The instruction goes only to places that have the ITSTATE it leaves, and is no IT
    instruction inside an IT block. -/
structure ItFlow (itstate_at : Nat → BitVec 32) (pc : Nat) (insn : insn_shape) : Prop where
  no_nested : insn.it.isSome → inItBlock (itstate_at pc) = false
  skipped : inItBlock (itstate_at pc) = true →
    itstate_at (pc + insn.size) = nextItState (itstate_at pc)
  falls : insn.exits = none → itstate_at (pc + insn.size) = insn.advance (itstate_at pc)
  branches : ∀ targets, insn_part.exit_cond targets ∈ insn.parts → ∀ t, targets t →
    itstate_at t = insn.advance (itstate_at pc)
  leaves : ∀ targets, insn.exits = some targets → ∀ t, targets t →
    itstate_at t = insn.advance (itstate_at pc)

/-- A program. An address where there is no code has an instruction that goes nowhere. -/
structure it_program where
  insn : Nat → insn_shape
  itstate_at : Nat → BitVec 32
  flow : ∀ pc, ItFlow itstate_at pc (insn pc)

/-! ## Contexts and signals -/

inductive running where
  /-- In the main loop, before the block of this pc. -/
  | loop (pc : Nat)
  /-- In a block, with this code left. -/
  | block (ops : List transient_op)

structure transient_context where
  helper_pc : Nat
  reg_itstate : BitVec 32
  /-- The value of `disa_itstate` with which the block of a pc was translated. -/
  cache : Nat → Option (BitVec 32)
  running : running

/-- The context that runs and those that are interrupted. -/
structure transient_state where
  current : transient_context
  outer : List transient_context

inductive transient_event where
  /-- The main loop starts a block, of at most `max_insn` instructions. Before that the cache
      may lose the blocks that do not satisfy `kept`. -/
  | enter (max_insn : Nat) (kept : Nat → Bool)
  /-- The next step of the code, which leaves the block when there is a pc. -/
  | next (target : Option Nat)
  /-- A signal. The memory of its context has `m` at the place of `helper_pc`, which `init` does
      not write. -/
  | signal (m handler : Nat)
  /-- The handler returns to where the signal came. -/
  | returns
  /-- The handler returns with another pc in its frame, or leaves its stack. -/
  | leaves (pc : Nat)

/-- `init`: neither target writes `helper_pc`, and `reg_itstate` is zero. -/
def transient_init (m entry : Nat) : transient_context := ⟨m, 0, fun _ => none, .loop entry⟩

/-- One step of the code of a block. -/
def transient_next (c : transient_context) (target : Option Nat) : Option transient_context :=
  match c.running, target with
  | .block (.helper_pc v :: ops), none => some { c with helper_pc := v, running := .block ops }
  | .block (.itstate v :: ops), none => some { c with reg_itstate := v, running := .block ops }
  | .block (.work :: ops), none => some { c with running := .block ops }
  | .block (.exit_cond _ :: ops), none => some { c with running := .block ops }
  | .block (.exit_cond targets :: _), some pc =>
    if targets pc then some { c with running := .loop pc } else none
  | .block (.exit targets :: _), some pc =>
    if targets pc then some { c with running := .loop pc } else none
  | _, _ => none

/-- The signal is taken to have come in guest code. -/
def in_guest_code (c : transient_context) : Bool :=
  c.helper_pc ≠ 0 || match c.running with
    | .loop _ => false
    | .block _ => true

section system

variable (P : it_program)

/-- The turn of the main loop at `pc`. A new block is translated with `reg_itstate`. -/
def transient_enter (c : transient_context) (pc max_insn : Nat) (kept : Nat → Bool) :
    transient_context :=
  let cache := fun pc => if kept pc then c.cache pc else none
  let disa_itstate := (cache pc).getD c.reg_itstate
  { c with
    cache := Function.update cache pc (some disa_itstate)
    running := .block (emit_block P.insn max_insn pc disa_itstate) }

def transient_step (s : transient_state) : transient_event → Option transient_state
  | .enter max_insn kept =>
    match s.current.running with
    | .loop pc => some { s with current := transient_enter P s.current pc max_insn kept }
    | .block _ => none
  | .next target => (transient_next s.current target).map fun c => { s with current := c }
  | .signal m handler =>
    -- a handler is no code inside an IT block
    if P.itstate_at handler = 0 then some ⟨transient_init m handler, s.current :: s.outer⟩ else none
  | .returns =>
    match s.current.running, s.outer with
    | .loop _, prev :: rest => some ⟨prev, rest⟩
    | _, _ => none
  | .leaves pc =>
    match s.current.running, s.outer with
    | .loop _, prev :: rest =>
      -- `getExitStatus` writes the registers of `prev`, but neither of the fields
      if in_guest_code prev then some ⟨{ prev with running := .loop pc }, rest⟩ else none
    | _, _ => none

/-- A thread, whose context was made in memory that has `m` at the place of `helper_pc`. -/
def transient_runs (entry m : Nat) : Runs.System transient_state transient_event where
  init := ⟨transient_init m entry, []⟩
  exec := transient_step P

end system

/-- The block that the main loop starts next finds clean fields. -/
def StartsClean (P : it_program) (s : transient_state) : Prop :=
  ∀ pc, s.current.running = .loop pc →
    s.current.helper_pc = 0 ∧ s.current.reg_itstate = P.itstate_at pc

/-- The memory of a new context is zero at the place of `helper_pc`, and a handler asks for
    another pc only when the interrupted context is not in a helper and has the ITSTATE of the
    instruction there. -/
def KeepsClean (P : it_program) (s : transient_state) : transient_event → Prop
  | .signal m _ => m = 0
  | .leaves pc => ∀ prev rest, s.outer = prev :: rest →
    prev.helper_pc = 0 ∧ prev.reg_itstate = P.itstate_at pc
  | _ => True

/-! ## Code that runs to its end -/

/-- From these values of the fields, the code leaves `helper_pc` zero and `reg_itstate` the
    state of the instruction that it goes to. -/
def LeavesClean (itstate_at : Nat → BitVec 32) : List transient_op → Nat → BitVec 32 → Prop
  | [], _, _ => False
  | .helper_pc v :: ops, _, it => LeavesClean itstate_at ops v it
  | .itstate v :: ops, helper_pc, _ => LeavesClean itstate_at ops helper_pc v
  | .work :: ops, helper_pc, it => LeavesClean itstate_at ops helper_pc it
  | .exit_cond targets :: ops, helper_pc, it =>
    (∀ pc, targets pc → helper_pc = 0 ∧ it = itstate_at pc) ∧ LeavesClean itstate_at ops helper_pc it
  | .exit targets :: _, helper_pc, it => ∀ pc, targets pc → helper_pc = 0 ∧ it = itstate_at pc

section emitted

variable {itstate_at : Nat → BitVec 32} {pc : Nat} {rest : List transient_op} {it : BitVec 32}

theorem mk_call_leaves_clean (hrest : LeavesClean itstate_at rest 0 it) (v : Nat) :
    LeavesClean itstate_at (mk_call pc ++ rest) v it := hrest

/-- The parts of an instruction leave the fields as they are. -/
theorem parts_leave_clean {parts : List insn_part}
    (hbranches : ∀ targets, insn_part.exit_cond targets ∈ parts → ∀ t, targets t → itstate_at t = it)
    (hrest : LeavesClean itstate_at rest 0 it) :
    LeavesClean itstate_at (parts.flatMap (insn_part.emit pc) ++ rest) 0 it := by
  induction parts with
  | nil => exact hrest
  | cons part parts ih =>
    have ih := ih fun targets hmem => hbranches targets (List.mem_cons_of_mem _ hmem)
    rw [List.flatMap_cons, List.append_assoc]
    cases part with
    | work => exact ih
    | call => exact mk_call_leaves_clean ih 0
    | exit_cond targets =>
      refine ⟨?_, ih⟩
      intro t ht
      exact ⟨rfl, (hbranches targets List.mem_cons_self t ht).symm⟩

theorem advance_of_in_it {insn : insn_shape} (hno : insn.it.isSome → inItBlock it = false)
    (hin : inItBlock it = true) : insn.it = none ∧ insn.advance it = nextItState it := by
  have hit : insn.it = none := by
    cases h : insn.it with
    | none => rfl
    | some imm8 =>
      have := hno (by rw [h]; rfl)
      rw [hin] at this
      cases this
  refine ⟨hit, ?_⟩
  simp only [insn_shape.advance, hit, hin, if_true]

/-- The code of an instruction goes from the ITSTATE of its address to the one after it. -/
theorem emit_insn_leaves_clean {insn : insn_shape} (hflow : ItFlow itstate_at pc insn)
    (hrest : LeavesClean itstate_at rest 0 (insn.advance (itstate_at pc))) :
    LeavesClean itstate_at (emit_insn pc insn (itstate_at pc) ++ rest) 0 (itstate_at pc) := by
  unfold emit_insn
  by_cases hin : inItBlock (itstate_at pc) = true
  · obtain ⟨hit, hnext⟩ := advance_of_in_it hflow.no_nested hin
    rw [hnext] at hrest
    simp only [hin, hit, if_true, List.append_assoc]
    apply mk_call_leaves_clean
    refine ⟨?_, ?_⟩
    · intro t ht
      rw [beq_iff_eq] at ht
      subst ht
      exact ⟨rfl, (hflow.skipped hin).symm⟩
    · apply parts_leave_clean _ hrest
      intro targets hmem t ht
      rw [hflow.branches targets hmem t ht, hnext]
  · simp only [hin]
    cases hit : insn.it with
    | some imm8 =>
      have hnext : insn.advance (itstate_at pc) = imm8.setWidth 32 := by
        simp only [insn_shape.advance, hit, hin]
        rfl
      rw [hnext] at hrest
      exact hrest
    | none =>
      have hnext : insn.advance (itstate_at pc) = itstate_at pc := by
        simp only [insn_shape.advance, hit, hin]
        rfl
      rw [hnext] at hrest
      apply parts_leave_clean _ hrest
      intro targets hmem t ht
      rw [hflow.branches targets hmem t ht, hnext]

/-- A block that is translated with the ITSTATE of its address runs from there to another. -/
theorem emit_block_leaves_clean (P : it_program) (maxInsn pc : Nat) :
    LeavesClean P.itstate_at (emit_block P.insn maxInsn pc (P.itstate_at pc)) 0 (P.itstate_at pc) := by
  induction maxInsn generalizing pc with
  | zero =>
    intro t ht
    rw [beq_iff_eq] at ht
    subst ht
    exact ⟨rfl, rfl⟩
  | succ maxInsn ih =>
    apply emit_insn_leaves_clean (P.flow pc)
    cases hexits : (P.insn pc).exits with
    | some targets =>
      intro t ht
      exact ⟨rfl, ((P.flow pc).leaves targets hexits t ht).symm⟩
    | none =>
      show LeavesClean _ (emit_block P.insn maxInsn _ _) 0 _
      rw [← (P.flow pc).falls hexits]
      exact ih _

end emitted

/-! ## Runs -/

section clean

variable {P : it_program} {s s' : transient_state} {e : transient_event} {c c' : transient_context}

/-- In the main loop the fields are clean, and in a block the code that is left makes them so. -/
def Settles (P : it_program) (c : transient_context) : Prop :=
  match c.running with
  | .loop pc => c.helper_pc = 0 ∧ c.reg_itstate = P.itstate_at pc
  | .block ops => LeavesClean P.itstate_at ops c.helper_pc c.reg_itstate

structure ContextClean (P : it_program) (c : transient_context) : Prop where
  settles : Settles P c
  cache : ∀ pc d, c.cache pc = some d → d = P.itstate_at pc

/-- All contexts of a thread are clean. -/
structure ThreadClean (P : it_program) (s : transient_state) : Prop where
  current : ContextClean P s.current
  outer : ∀ c ∈ s.outer, ContextClean P c

theorem transient_next_cases {target : Option Nat} (hnext : transient_next c target = some c') :
    (∃ v ops, c.running = .block (.helper_pc v :: ops) ∧
      c' = { c with helper_pc := v, running := .block ops }) ∨
    (∃ v ops, c.running = .block (.itstate v :: ops) ∧
      c' = { c with reg_itstate := v, running := .block ops }) ∨
    (∃ ops, c.running = .block (.work :: ops) ∧ c' = { c with running := .block ops }) ∨
    (∃ targets ops, c.running = .block (.exit_cond targets :: ops) ∧
      c' = { c with running := .block ops }) ∨
    (∃ targets ops pc, c.running = .block (.exit_cond targets :: ops) ∧ targets pc ∧
      c' = { c with running := .loop pc }) ∨
    (∃ targets ops pc, c.running = .block (.exit targets :: ops) ∧ targets pc ∧
      c' = { c with running := .loop pc }) := by
  unfold transient_next at hnext
  split at hnext
  · exact .inl ⟨_, _, ‹_›, (Option.some.inj hnext).symm⟩
  · exact .inr (.inl ⟨_, _, ‹_›, (Option.some.inj hnext).symm⟩)
  · exact .inr (.inr (.inl ⟨_, ‹_›, (Option.some.inj hnext).symm⟩))
  · exact .inr (.inr (.inr (.inl ⟨_, _, ‹_›, (Option.some.inj hnext).symm⟩)))
  · split_ifs at hnext with htarget
    exact .inr (.inr (.inr (.inr (.inl ⟨_, _, _, ‹_›, htarget, (Option.some.inj hnext).symm⟩))))
  · split_ifs at hnext with htarget
    exact .inr (.inr (.inr (.inr (.inr ⟨_, _, _, ‹_›, htarget, (Option.some.inj hnext).symm⟩))))
  · cases hnext

theorem next_clean {target : Option Nat} (hc : ContextClean P c)
    (hnext : transient_next c target = some c') : ContextClean P c' := by
  have hsettles := hc.settles
  unfold Settles at hsettles
  obtain ⟨v, ops, hrun, rfl⟩ | ⟨v, ops, hrun, rfl⟩ | ⟨ops, hrun, rfl⟩ | ⟨targets, ops, hrun, rfl⟩ |
    ⟨targets, ops, pc, hrun, htarget, rfl⟩ | ⟨targets, ops, pc, hrun, htarget, rfl⟩ :=
    transient_next_cases hnext
  all_goals rw [hrun] at hsettles
  · exact ⟨hsettles, hc.cache⟩
  · exact ⟨hsettles, hc.cache⟩
  · exact ⟨hsettles, hc.cache⟩
  · exact ⟨hsettles.2, hc.cache⟩
  · exact ⟨hsettles.1 pc htarget, hc.cache⟩
  · exact ⟨hsettles pc htarget, hc.cache⟩

theorem init_clean {entry : Nat} (hentry : P.itstate_at entry = 0) :
    ContextClean P (transient_init 0 entry) := by
  refine ⟨⟨rfl, hentry.symm⟩, ?_⟩
  rintro pc d ⟨⟩

/-- A block that starts with clean fields was translated with the ITSTATE of its address, now
    or earlier. -/
theorem enter_clean {pc : Nat} (hc : ContextClean P c) (hrun : c.running = .loop pc)
    (max_insn : Nat) (kept : Nat → Bool) : ContextClean P (transient_enter P c pc max_insn kept) := by
  have hsettles := hc.settles
  unfold Settles at hsettles
  rw [hrun] at hsettles
  obtain ⟨hhelper, hit⟩ := hsettles
  have hkept : ∀ pc d, (if kept pc then c.cache pc else none) = some d → d = P.itstate_at pc := by
    intro pc d h
    split_ifs at h
    exact hc.cache pc d h
  have hdisa : ((if kept pc then c.cache pc else none).getD c.reg_itstate) = P.itstate_at pc := by
    cases h : (if kept pc then c.cache pc else none) with
    | none => exact hit
    | some d => exact hkept pc d h
  refine ⟨?_, ?_⟩
  · show LeavesClean P.itstate_at (emit_block P.insn max_insn pc _) c.helper_pc c.reg_itstate
    rw [hdisa, hhelper, hit]
    exact emit_block_leaves_clean P max_insn pc
  · intro pc' d h
    simp only [transient_enter] at h
    by_cases hpc : pc' = pc
    · subst hpc
      rw [Function.update_self] at h
      obtain rfl := Option.some.inj h
      exact hdisa
    · rw [Function.update_of_ne hpc] at h
      exact hkept pc' d h

/-- What a step does. -/
theorem transient_step_cases (hstep : transient_step P s e = some s') :
    (∃ max_insn kept pc, e = .enter max_insn kept ∧ s.current.running = .loop pc ∧
      s' = { s with current := transient_enter P s.current pc max_insn kept }) ∨
    (∃ target c, e = .next target ∧ transient_next s.current target = some c ∧
      s' = { s with current := c }) ∨
    (∃ m handler, e = .signal m handler ∧ P.itstate_at handler = 0 ∧
      s' = ⟨transient_init m handler, s.current :: s.outer⟩) ∨
    (∃ prev rest, e = .returns ∧ s.outer = prev :: rest ∧ s' = ⟨prev, rest⟩) ∨
    (∃ pc prev rest, e = .leaves pc ∧ s.outer = prev :: rest ∧
      s' = ⟨{ prev with running := .loop pc }, rest⟩) := by
  cases e with
  | enter max_insn kept =>
    simp only [transient_step] at hstep
    split at hstep
    · exact .inl ⟨_, _, _, rfl, ‹_›, (Option.some.inj hstep).symm⟩
    · cases hstep
  | next target =>
    obtain ⟨c, hnext, rfl⟩ := Option.map_eq_some_iff.1 hstep
    exact .inr (.inl ⟨_, _, rfl, hnext, rfl⟩)
  | signal m handler =>
    simp only [transient_step] at hstep
    split_ifs at hstep with hhandler
    exact .inr (.inr (.inl ⟨_, _, rfl, hhandler, (Option.some.inj hstep).symm⟩))
  | returns =>
    simp only [transient_step] at hstep
    split at hstep
    · exact .inr (.inr (.inr (.inl ⟨_, _, rfl, ‹_›, (Option.some.inj hstep).symm⟩)))
    · cases hstep
  | leaves pc =>
    simp only [transient_step] at hstep
    split at hstep
    · split_ifs at hstep
      exact .inr (.inr (.inr (.inr ⟨_, _, _, rfl, ‹_›, (Option.some.inj hstep).symm⟩)))
    · cases hstep

theorem ThreadClean.starts (hs : ThreadClean P s) : StartsClean P s := by
  intro pc hrun
  have hsettles := hs.current.settles
  unfold Settles at hsettles
  rwa [hrun] at hsettles

theorem step_clean (hs : ThreadClean P s) (hkeeps : KeepsClean P s e)
    (hstep : transient_step P s e = some s') : ThreadClean P s' := by
  obtain ⟨max_insn, kept, pc, rfl, hrun, rfl⟩ | ⟨target, c, rfl, hnext, rfl⟩ |
    ⟨m, handler, rfl, hhandler, rfl⟩ | ⟨prev, rest, rfl, houter, rfl⟩ |
    ⟨pc, prev, rest, rfl, houter, rfl⟩ := transient_step_cases hstep
  · exact ⟨enter_clean hs.current hrun max_insn kept, hs.outer⟩
  · exact ⟨next_clean hs.current hnext, hs.outer⟩
  · obtain rfl : m = 0 := hkeeps
    refine ⟨init_clean hhandler, ?_⟩
    intro c hc
    obtain rfl | hc := List.mem_cons.1 hc
    · exact hs.current
    · exact hs.outer c hc
  · have houter' : ∀ c ∈ prev :: rest, ContextClean P c := houter ▸ hs.outer
    exact ⟨houter' prev List.mem_cons_self, fun c hc => houter' c (List.mem_cons_of_mem _ hc)⟩
  · have houter' : ∀ c ∈ prev :: rest, ContextClean P c := houter ▸ hs.outer
    have hprev := houter' prev List.mem_cons_self
    exact ⟨⟨hkeeps prev rest houter, hprev.cache⟩,
      fun c hc => houter' c (List.mem_cons_of_mem _ hc)⟩

/-- A step that does not keep the fields clean comes to a main loop with fields that are not. -/
theorem step_keeps (hstep : transient_step P s e = some s')
    (hstarts : StartsClean P s') : KeepsClean P s e := by
  obtain ⟨max_insn, kept, pc, rfl, hrun, rfl⟩ | ⟨target, c, rfl, hnext, rfl⟩ |
    ⟨m, handler, rfl, hhandler, rfl⟩ | ⟨prev, rest, rfl, houter, rfl⟩ |
    ⟨pc, prev, rest, rfl, houter, rfl⟩ := transient_step_cases hstep
  · exact trivial
  · exact trivial
  · exact (hstarts handler rfl).1
  · exact trivial
  · intro prev' rest' houter'
    rw [houter] at houter'
    cases houter'
    exact hstarts pc rfl

theorem run_clean {entry : Nat} (hentry : P.itstate_at entry = 0)
    (hreach : (transient_runs P entry 0).Reach (KeepsClean P) s) : ThreadClean P s := by
  refine hreach.invariant ?_ ?_
  · refine ⟨init_clean hentry, ?_⟩
    rintro c ⟨⟩
  · intro s e s' hs hkeeps hstep
    exact step_clean hs hkeeps hstep

end clean

/-- In a run in which the memory of new contexts is zero at the place of `helper_pc` and no
    handler asks for another pc while the interrupted context is in a helper or has another
    ITSTATE, each block starts with clean fields. The first step that is not so gives the main
    loop fields that are not. -/
theorem blocks_start_clean (P : it_program) (entry : Nat) (hentry : P.itstate_at entry = 0)
    (s : transient_state) (hreach : (transient_runs P entry 0).Reach (KeepsClean P) s) :
    StartsClean P s ∧
      ∀ e s', (transient_runs P entry 0).exec s e = some s' → (StartsClean P s' ↔ KeepsClean P s e) := by
  have hs := run_clean hentry hreach
  refine ⟨hs.starts, ?_⟩
  intro e s' hstep
  constructor
  · intro hstarts
    exact step_keeps hstep hstarts
  · intro hkeeps
    exact (step_clean hs hkeeps hstep).starts

/-- An IT instruction at 1, an instruction in its block at 3 and a branch back at 5. A handler
    is at 9. -/
def it_loop : it_program where
  insn
    | 1 => ⟨2, some 0x08, [], none⟩
    | 3 => ⟨2, none, [.work], none⟩
    | 5 => ⟨2, none, [], some (· == 1)⟩
    | 9 => ⟨2, none, [.work], some (· == 11)⟩
    | _ => ⟨2, none, [], some fun _ => false⟩
  itstate_at
    | 3 => 0x08
    | _ => 0
  flow pc := by
    match pc with
    | 1 => constructor <;> simp [insn_shape.advance, inItBlock]
    | 3 => constructor <;> simp [insn_shape.advance, inItBlock, nextItState]
    | 5 => constructor <;> simp [insn_shape.advance, inItBlock]
    | 9 => constructor <;> simp [insn_shape.advance, inItBlock]
    | 0 | 2 | 4 | 6 | 7 | 8 | _ + 10 => constructor <;> simp [insn_shape.advance, inItBlock]

/-- The handler sends the thread back to the instruction in the IT block at which it was
    interrupted. -/
theorem blocks_start_clean_at_it_loop :
    ∃ s, (transient_runs it_loop 1 0).Reach (KeepsClean it_loop) s ∧
      s.current.running = .loop 3 ∧ s.current.reg_itstate = 0x08 ∧ StartsClean it_loop s := by
  have hreach : (transient_runs it_loop 1 0).Reach (KeepsClean it_loop) _ :=
    .step (.step (.step (.step (.step (.step (.step .init
      (l := .enter 40 fun _ => true) trivial rfl)
      (l := .next none) trivial rfl)
      (l := .signal 0 9) rfl rfl)
      (l := .enter 10 fun _ => false) trivial rfl)
      (l := .next none) trivial rfl)
      (l := .next (some 11)) trivial rfl)
      (l := .leaves 3) (by rintro _ _ ⟨⟩; exact ⟨rfl, rfl⟩) rfl
  exact ⟨_, hreach, rfl, rfl, (blocks_start_clean it_loop 1 rfl _ hreach).1⟩

/-- A handler leaves its stack for the IT instruction when the thread was interrupted in the
    helper of the instruction after it. The loop has both fields of that instruction. -/
theorem left_helper_starts_dirty :
    ¬ ∀ (P : it_program) (entry : Nat), P.itstate_at entry = 0 → ∀ s,
      (transient_runs P entry 0).Reach (fun _ e => ∀ m handler, e = .signal m handler → m = 0) s →
        StartsClean P s := by
  intro h
  have hreach : (transient_runs it_loop 1 0).Reach
      (fun _ e => ∀ m handler, e = .signal m handler → m = 0) _ :=
    .step (.step (.step (.step (.step (.step (.step (.step .init
      (l := .enter 40 fun _ => true) (by rintro _ _ ⟨⟩) rfl)
      (l := .next none) (by rintro _ _ ⟨⟩) rfl)
      (l := .next none) (by rintro _ _ ⟨⟩) rfl)
      (l := .signal 0 9) (by rintro _ _ ⟨⟩; rfl) rfl)
      (l := .enter 10 fun _ => false) (by rintro _ _ ⟨⟩) rfl)
      (l := .next none) (by rintro _ _ ⟨⟩) rfl)
      (l := .next (some 11)) (by rintro _ _ ⟨⟩) rfl)
      (l := .leaves 1) (by rintro _ _ ⟨⟩) rfl
  obtain ⟨hhelper, -⟩ := h it_loop 1 rfl _ hreach 1 rfl
  have hstale : (3 : Nat) = 0 := hhelper
  cases hstale

end Umeq.Signal
