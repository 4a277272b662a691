import Umeq.Jitter.Reproduced
import Umeq.Arm.ItBlocks

/-! # Translating a block again

    To find the guest instruction of a host pc, `find_insn_offset` translates the block of the
    cache again: `disassemble_*_with_marker`, from a zeroed context and with 40 instructions at
    most, then `findInsn`. This works as far as the code is the same as the first time.

    What a disassembler emits depends on the guest memory, on the pc and on one field of the
    context: `disa_itstate` for Thumb, `is_stepin` for arm64. The field is zero in the second
    translation. `retranslation_reproduces` says that the code of the block is reproduced when
    the first translation did not start inside an IT block and, on arm64, was not that of a
    single step over an instruction whose exit depends on `is_stepin`. `mk_exit` does; `dis_brk`
    leaves with `add_exit`, so that a single step over a BRK is reproduced.

    What is emitted for the single instructions is a parameter.
-/

namespace Umeq.Signal

open Words Jitter

/-! ## Disassemblers -/

/-- The instruction at a pc: its bytes, what is emitted for it, whether it is an unconditional
    exit, and the field of the context after it. -/
structure translation (F : Type) where
  size : Nat
  code : fragment
  isExit : Bool
  flags : F

/-- A disassembler for some guest memory. `exit` is what is emitted at the end of a block when
    the last instruction is no exit. -/
structure disassembler (F : Type) where
  is_stepin : F → Bool
  insn : Nat → F → translation F
  exit : Nat → F → fragment

section loops

variable {F : Type} (D : disassembler F)

/-- The loop of `disassemble_*` and, with markers, of `disassemble_*_with_marker`: instruction
    `i`, when there are `left` more until `maxInsn`. -/
def disassemble_from (marked : Bool) (pc : Nat) : Nat → Nat → Nat → F → jitter → jitter
  | 0, _, pc_offset, flags, j => j.emit (D.exit (pc + pc_offset) flags)
  | left + 1, i, pc_offset, flags, j =>
    if i = 0 ∨ D.is_stepin flags = false then
      let j := if marked then add_insn_marker (BitVec.ofNat 32 pc_offset) j else j
      let t := D.insn (pc + pc_offset) flags
      let j := j.emit t.code
      if t.isExit then j
      else disassemble_from marked pc left (i + 1) (pc_offset + t.size) t.flags j
    else j.emit (D.exit (pc + pc_offset) flags)

def disassemble (maxInsn pc : Nat) (flags : F) : jitter :=
  disassemble_from D false pc maxInsn 0 0 flags resetJitter

def disassemble_with_marker (maxInsn pc : Nat) (flags : F) : jitter :=
  disassemble_from D true pc maxInsn 0 0 flags resetJitter

/-- The guest instructions of the loop, when there are `base` registers so far. -/
def guests_from (pc : Nat) : Nat → Nat → Nat → F → Nat → List (guest irInstruction)
  | 0, _, _, _, _ => []
  | left + 1, i, pc_offset, flags, base =>
    if i = 0 ∨ D.is_stepin flags = false then
      let t := D.insn (pc + pc_offset) flags
      ⟨BitVec.ofNat 32 pc_offset, t.code.insns.map (irInstruction.shift base)⟩ ::
        if t.isExit then []
        else guests_from pc left (i + 1) (pc_offset + t.size) t.flags
          (base + (results t.code.insns).length)
    else []

/-- The guest instructions of a block. -/
def block_guests (maxInsn pc : Nat) (flags : F) : List (guest irInstruction) :=
  guests_from D pc maxInsn 0 0 flags 0

/-- `cache_memory_config[memory_profile].max_insn`. -/
def max_insn : Fin 4 → Nat := ![10, 10, 20, 40]

/-- On this back end the second translation has the code of the block. -/
def ReproducesOn (B : back_end) (maxInsn pc : Nat) (flags zeroed : F) : Prop :=
  let j := disassemble D maxInsn pc flags
  let j' := disassemble_with_marker D 40 pc zeroed
  ∀ a a', B.allocateRegisters (B.allocateInstructions j) = some a →
    B.allocateRegisters (B.allocateInstructions j') = some a' →
    SameCode (B.emit (B.allocateInstructions j) a) (B.emit (B.allocateInstructions j') a')
      (B.plain_guests j (block_guests D maxInsn pc flags))
      (B.marked_guests j' (block_guests D 40 pc zeroed)) (B.insns (B.allocateInstructions j'))

/-- What `find_insn_offset` regenerates from a zeroed context has the code of the block. -/
def Reproduces (maxInsn pc : Nat) (flags zeroed : F) : Prop :=
  ReproducesOn D x86_64 maxInsn pc flags zeroed ∧
    ∀ helper, ReproducesOn D (i386 helper) maxInsn pc flags zeroed

end loops

/-! ## The guest instructions of a program -/

/-- The registers of guest instructions. -/
def registers_of (gs : List (guest irInstruction)) : Nat := (results (gs.flatMap guest.insns)).length

/-- Guest instructions with registers of their own, from `base` on. -/
def Stacked : Nat → List (guest irInstruction) → Prop
  | _, [] => True
  | base, g :: gs => (∀ v, .marker v ∉ g.insns) ∧
      (∀ insn ∈ g.insns, ∀ r, irRegisters insn r → base ≤ r ∧ r < base + (results g.insns).length) ∧
      Stacked (base + (results g.insns).length) gs

section stacked

variable {base : Nat} {gs more : List (guest irInstruction)}

theorem registers_of_cons (g : guest irInstruction) (gs : List (guest irInstruction)) :
    registers_of (g :: gs) = (results g.insns).length + registers_of gs := by
  rw [registers_of, List.flatMap_cons, results_append, List.length_append, registers_of]

theorem Stacked.append (h : Stacked base (gs ++ more)) :
    Stacked base gs ∧ Stacked (base + registers_of gs) more := by
  induction gs generalizing base with
  | nil => exact ⟨trivial, h⟩
  | cons g gs ih =>
    obtain ⟨hplain, hregs, hrest⟩ := h
    obtain ⟨hgs, hmore⟩ := ih hrest
    refine ⟨⟨hplain, hregs, hgs⟩, ?_⟩
    rw [registers_of_cons, ← Nat.add_assoc]
    exact hmore

theorem Stacked.plain (h : Stacked base gs) : ∀ g ∈ gs, ∀ v, .marker v ∉ g.insns := by
  induction gs generalizing base with
  | nil => exact fun g hg => absurd hg List.not_mem_nil
  | cons g gs ih =>
    intro g' hg'
    obtain rfl | hg' := List.mem_cons.mp hg'
    · exact h.1
    · exact ih h.2.2 g' hg'

theorem Stacked.bounds (h : Stacked base gs) : ∀ g ∈ gs, ∀ insn ∈ g.insns, ∀ r, irRegisters insn r →
    base ≤ r ∧ r < base + registers_of gs := by
  induction gs generalizing base with
  | nil => exact fun g hg => absurd hg List.not_mem_nil
  | cons g gs ih =>
    intro g' hg' insn hinsn r hr
    rw [registers_of_cons]
    obtain rfl | hg' := List.mem_cons.mp hg'
    · have := h.2.1 insn hinsn r hr
      omega
    · have := ih h.2.2 g' hg' insn hinsn r hr
      omega

/-- With or without markers, the registers are not below `base`. -/
theorem Stacked.above (h : Stacked base gs) (marked : Bool) :
    ∀ insn ∈ gs.flatMap (guest.code marked), ∀ r, irRegisters insn r → base ≤ r := by
  intro insn hmem r hr
  obtain ⟨g, hg, hinsn⟩ := List.mem_flatMap.mp hmem
  cases marked with
  | false => exact (h.bounds g hg insn hinsn r hr).1
  | true =>
    obtain rfl | hinsn := List.mem_cons.mp hinsn
    · obtain ⟨q, hq, -⟩ | ⟨d, hd, -⟩ := hr
      · cases hq
      · cases hd
    · exact (h.bounds g hg insn hinsn r hr).1

end stacked

section programs

variable {F : Type} (D : disassembler F) (marked : Bool) (pc : Nat)

theorem stacked_guests (left i pc_offset : Nat) (flags : F) (base : Nat) :
    Stacked base (guests_from D pc left i pc_offset flags base) := by
  induction left generalizing i pc_offset flags base with
  | zero => trivial
  | succ left ih =>
    rw [guests_from]
    split_ifs with hgoes
    · have hlen : (results ((D.insn (pc + pc_offset) flags).code.insns.map
          (irInstruction.shift base))).length =
          (results (D.insn (pc + pc_offset) flags).code.insns).length := by
        rw [results_shift, List.length_map]
      refine ⟨fragment.plain_shift _ _, ?_, ?_⟩
      · rw [hlen]
        exact fragment.registers _ _
      · rw [hlen]
        split_ifs with hexit
        · trivial
        · exact ih _ _ _ _
    · trivial

/-- Guest instructions are added, and then what has registers after theirs. -/
structure Adds (marked : Bool) (gs : List (guest irInstruction)) (j k : jitter) : Prop where
  reads : Reads k
  insns : ∃ rest, k.insns = j.insns ++ gs.flatMap (guest.code marked) ++ rest ∧
    ∀ insn ∈ rest, ∀ r, irRegisters insn r → j.types.length + registers_of gs ≤ r

theorem adds_exit {marked : Bool} {j : jitter} (hreads : Reads j) (f : fragment) : Adds marked [] j (j.emit f) := by
  refine ⟨hreads.emit f, f.insns.map (irInstruction.shift j.types.length), ?_, ?_⟩
  · rw [emit_insns, List.flatMap_nil, List.append_nil]
  · exact fun insn hmem r hr => (f.registers _ insn hmem r hr).1

/-- The loop adds its guest instructions, with what is emitted at the end of the block. -/
theorem adds_disassemble (left i pc_offset : Nat) (flags : F) {j : jitter} (hreads : Reads j) :
    Adds marked (guests_from D pc left i pc_offset flags j.types.length) j
      (disassemble_from D marked pc left i pc_offset flags j) := by
  induction left generalizing i pc_offset flags j with
  | zero => exact adds_exit hreads _
  | succ left ih =>
    rw [disassemble_from, guests_from]
    by_cases hgoes : i = 0 ∨ D.is_stepin flags = false
    · rw [if_pos hgoes, if_pos hgoes]
      -- the marker has no register, so that the fragment is numbered as without it
      obtain ⟨k, hk, hkreads, hktypes, hkinsns⟩ : ∃ k : jitter,
          (if marked then add_insn_marker (BitVec.ofNat 32 pc_offset) j else j) = k ∧ Reads k ∧
            k.types = j.types ∧ ∀ insns, k.insns ++ insns =
              j.insns ++ guest.code marked ⟨BitVec.ofNat 32 pc_offset, insns⟩ := by
        cases marked with
        | false => exact ⟨j, rfl, hreads, rfl, fun insns => rfl⟩
        | true =>
          refine ⟨_, rfl, hreads.add _ _, rfl, ?_⟩
          exact fun insns => List.append_assoc _ _ _
      simp only [hk]
      generalize D.insn (pc + pc_offset) flags = t
      have hinsns : (k.emit t.code).insns = j.insns ++ guest.code marked
          ⟨BitVec.ofNat 32 pc_offset, t.code.insns.map (irInstruction.shift j.types.length)⟩ := by
        rw [emit_insns, hktypes, hkinsns]
      have htypes : (k.emit t.code).types.length = j.types.length + (results t.code.insns).length := by
        rw [emit_types, hktypes, List.length_append, List.length_map]
      have hlen : (results (t.code.insns.map (irInstruction.shift j.types.length))).length =
          (results t.code.insns).length := by
        rw [results_shift, List.length_map]
      by_cases hexit' : t.isExit = true
      · rw [if_pos hexit', if_pos hexit']
        refine ⟨hkreads.emit _, [], ?_, ?_⟩
        · rw [hinsns, List.flatMap_cons, List.flatMap_nil]
          simp
        · exact fun insn hmem => absurd hmem List.not_mem_nil
      · rw [if_neg hexit', if_neg hexit']
        obtain ⟨hreads', rest, hrest, habove⟩ :=
          ih (i + 1) (pc_offset + t.size) t.flags (hkreads.emit t.code)
        refine ⟨hreads', rest, ?_, ?_⟩
        · rw [hrest, hinsns, htypes, List.flatMap_cons]
          simp
        · intro insn hmem r hr
          have := habove insn hmem r hr
          rw [htypes] at this
          rw [registers_of_cons, hlen]
          omega
    · rw [if_neg hgoes, if_neg hgoes]
      exact adds_exit hreads _

/-- The program starts with the first of its guest instructions. -/
theorem starts_disassemble {maxInsn : Nat} {flags : F} {gs more : List (guest irInstruction)}
    (hgs : block_guests D maxInsn pc flags = gs ++ more) :
    Starts (registers_of gs) marked gs (disassemble_from D marked pc maxInsn 0 0 flags resetJitter) := by
  have hstacked := stacked_guests D pc maxInsn 0 0 flags 0
  rw [show guests_from D pc maxInsn 0 0 flags 0 = gs ++ more from hgs] at hstacked
  obtain ⟨hfirst, hrest⟩ := hstacked.append
  rw [Nat.zero_add] at hrest
  obtain ⟨hreads, rest, hinsns, habove⟩ :=
    adds_disassemble D marked pc maxInsn 0 0 flags reads_reset
  rw [show guests_from D pc maxInsn 0 0 flags resetJitter.types.length = gs ++ more from hgs]
    at hinsns habove
  refine ⟨⟨more.flatMap (guest.code marked) ++ rest, ?_, ?_⟩, hfirst.plain, ?_, hreads⟩
  · rw [hinsns, List.flatMap_append, List.append_assoc]
    simp [resetJitter]
  · intro insn hmem r hr
    obtain hmem | hmem := List.mem_append.mp hmem
    · exact hrest.above marked insn hmem r hr
    · have := habove insn hmem r hr
      have hlen : registers_of gs ≤ registers_of (gs ++ more) := by
        rw [registers_of, registers_of, List.flatMap_append, results_append, List.length_append]
        exact Nat.le_add_right _ _
      omega
  · intro g hg insn hinsn r hr
    have := (hfirst.bounds g hg insn hinsn r hr).2
    omega

/-- The block is reproduced when its guest instructions are the first ones of the second
    translation. -/
theorem reproduces_of_prefix {maxInsn : Nat} {flags zeroed : F}
    (h : block_guests D maxInsn pc flags <+: block_guests D 40 pc zeroed) :
    Reproduces D maxInsn pc flags zeroed := by
  obtain ⟨more, hmore⟩ := h
  have hfirst := starts_disassemble D false pc
    (List.append_nil (block_guests D maxInsn pc flags)).symm
  have hsecond := starts_disassemble D true pc hmore.symm
  refine ⟨?_, ?_⟩
  · intro a a' ha ha'
    rw [← hmore]
    exact x86_64_parallel.sameCode hfirst hsecond ha ha' more
  · intro helper a a' ha ha'
    rw [← hmore]
    exact (i386_parallel helper).sameCode hfirst hsecond ha ha' more

/-- The two translations go on alike as long as their flags are related. -/
theorem guests_prefix {R : F → F → Prop}
    (hinsn : ∀ pc f f', R f f' → (D.insn pc f).size = (D.insn pc f').size ∧
      (D.insn pc f).code = (D.insn pc f').code ∧ (D.insn pc f).isExit = (D.insn pc f').isExit ∧
        R (D.insn pc f).flags (D.insn pc f').flags)
    (hstep : ∀ f f', R f f' → D.is_stepin f' = false) {left left' : Nat} (hle : left ≤ left')
    (i pc_offset base : Nat) {f f' : F} (hR : R f f') :
    guests_from D pc left i pc_offset f base <+: guests_from D pc left' i pc_offset f' base := by
  induction left generalizing left' i pc_offset base f f' with
  | zero => exact List.nil_prefix
  | succ left ih =>
    obtain ⟨left', rfl⟩ : ∃ n, left' = n + 1 := ⟨left' - 1, by omega⟩
    obtain ⟨hsize, hcode, hexit, hflags⟩ := hinsn (pc + pc_offset) f f' hR
    have hgoes' : i = 0 ∨ D.is_stepin f' = false := .inr (hstep f f' hR)
    simp only [guests_from, if_pos hgoes', hsize, hcode, hexit]
    by_cases hgoes : i = 0 ∨ D.is_stepin f = false
    · rw [if_pos hgoes, List.prefix_cons_inj]
      split_ifs with hlast
      · exact List.prefix_rfl
      · exact ih (by omega) _ _ _ hflags
    · rw [if_neg hgoes]
      exact List.nil_prefix

end programs

/-! ## The three disassemblers -/

/-- ARM instructions in the guest memory: what is emitted for the one at a pc, with the test of
    its condition, and whether it is an exit. -/
def arm_memory : Type := Nat → fragment × Bool

/-- A Thumb instruction. Inside an IT block what is emitted depends on `disa_itstate`. -/
structure thumb_code where
  wide : Bool
  /-- `INSN(7, 0)` of an IT instruction. -/
  it : Option (BitVec 8)
  outside : fragment
  inside : BitVec 32 → fragment
  isExit : Bool

def thumb_memory : Type := Nat → thumb_code

/-- What is emitted for an unconditional exit may depend on `is_stepin`. -/
inductive arm64_code where
  | next (code : fragment)
  | exit (code : Bool → fragment)

/-- arm64 instructions in the guest memory, with what `mk_gdb_stepin_instruction` refers to. -/
structure arm64_memory where
  insn : Nat → arm64_code
  arm64_gdb_stepin_instruction : BitVec 64
  helper_pc : BitVec 32

def r15_offset : BitVec 32 := 60

def pc_offset : BitVec 32 := 256

/-- The end of an ARM or Thumb block: `r15` is written and the block is left. -/
def arm_exit (pc : Nat) : fragment where
  insns := [.mov .w32 ⟨.w32, 0⟩ (BitVec.ofNat 64 pc), .write_context .w32 ⟨.w32, 0⟩ r15_offset,
    .mov .w64 ⟨.w64, 1⟩ (BitVec.ofNat 64 pc), .exit ⟨.w64, 1⟩ none]
  ssa := by simp [Ssa, irInstruction.typed, irInstruction.reads, irInstruction.dst]
  plain := by simp

/-- `mk_exit` for the instruction at `pc`, with a constant. -/
def mk_exit (stepin_instruction : BitVec 64) (helper_pc : BitVec 32) (pc next_pc : Nat)
    (is_stepin : Bool) : fragment :=
  if is_stepin then
    { insns := [.mov .w64 ⟨.w64, 0⟩ (BitVec.ofNat 64 next_pc), .write_context .w64 ⟨.w64, 0⟩ pc_offset,
        .mov .w64 ⟨.w64, 1⟩ stepin_instruction,
        .mov .w64 ⟨.w64, 2⟩ (BitVec.ofNat 64 pc), .write_context .w64 ⟨.w64, 2⟩ helper_pc,
        .call ⟨.w64, 1⟩ (fun _ => none) none,
        .mov .w64 ⟨.w64, 3⟩ 0, .write_context .w64 ⟨.w64, 3⟩ helper_pc,
        .exit ⟨.w64, 0⟩ none]
      ssa := by simp [Ssa, irInstruction.typed, irInstruction.reads, irInstruction.dst]
      plain := by simp }
  else
    { insns := [.mov .w64 ⟨.w64, 0⟩ (BitVec.ofNat 64 next_pc), .write_context .w64 ⟨.w64, 0⟩ pc_offset,
        .exit ⟨.w64, 0⟩ none]
      ssa := by simp [Ssa, irInstruction.typed, irInstruction.reads, irInstruction.dst]
      plain := by simp }

/-- `disassemble_arm`. -/
def arm_disassembler (m : arm_memory) : disassembler Unit where
  is_stepin _ := false
  insn pc _ := ⟨4, (m pc).1, (m pc).2, ()⟩
  exit pc _ := arm_exit pc

/-- `disassemble_thumb`, with the `disa_itstate` of the context. -/
def thumb_disassembler (m : thumb_memory) : disassembler (BitVec 32) where
  is_stepin _ := false
  insn pc disa_itstate :=
    let inIt := Arm.inItBlock disa_itstate
    let next := match (m pc).it with
      | some imm8 => imm8.setWidth 32
      | none => disa_itstate
    { size := if (m pc).wide then 4 else 2
      code := if inIt then (m pc).inside disa_itstate else (m pc).outside
      isExit := (m pc).isExit
      flags := if inIt then Arm.nextItState next else next }
  exit pc _ := arm_exit pc

/-- `disassemble_arm64`, with the `is_stepin` of the context. -/
def arm64_disassembler (m : arm64_memory) : disassembler Bool where
  is_stepin := id
  insn pc is_stepin := match m.insn pc with
    | .next code => ⟨4, code, false, is_stepin⟩
    | .exit code => ⟨4, code is_stepin, true, false⟩
  exit pc is_stepin := mk_exit m.arm64_gdb_stepin_instruction m.helper_pc (pc - 4) pc is_stepin

/-- A single step over the instruction has the code of the instruction. -/
def arm64_code.SteppedAlike : arm64_code → Prop
  | .next _ => True
  | .exit code => code true = code false

theorem max_insn_le (profile : Fin 4) : max_insn profile ≤ 40 := by
  revert profile
  decide

/-- Two states of the disassembler in which no instruction is conditional, or the same one. -/
def SameIt (s s' : BitVec 32) : Prop :=
  s = s' ∨ Arm.inItBlock s = false ∧ Arm.inItBlock s' = false

theorem thumb_same (m : thumb_memory) (pc : Nat) {s s' : BitVec 32} (h : SameIt s s') :
    ((thumb_disassembler m).insn pc s).size = ((thumb_disassembler m).insn pc s').size ∧
    ((thumb_disassembler m).insn pc s).code = ((thumb_disassembler m).insn pc s').code ∧
    ((thumb_disassembler m).insn pc s).isExit = ((thumb_disassembler m).insn pc s').isExit ∧
    SameIt ((thumb_disassembler m).insn pc s).flags ((thumb_disassembler m).insn pc s').flags := by
  obtain rfl | ⟨hs, hs'⟩ := h
  · exact ⟨rfl, rfl, rfl, .inl rfl⟩
  · simp only [thumb_disassembler, hs, hs', Bool.false_eq_true, if_false, true_and]
    cases (m pc).it with
    | some imm8 => exact .inl rfl
    | none => exact .inr ⟨hs, hs'⟩

/-- A single step has one guest instruction, which is the first one of the second translation. -/
theorem stepin_prefix (m : arm64_memory) (pc : Nat) (halike : (m.insn pc).SteppedAlike)
    (left left' : Nat) :
    block_guests (arm64_disassembler m) (left + 1) pc true <+:
      block_guests (arm64_disassembler m) (left' + 1) pc false := by
  -- a single step translates one instruction
  have hstops : ∀ base, guests_from (arm64_disassembler m) pc left 1 4 true base = [] := by
    intro base
    cases left with
    | zero => rfl
    | succ left => rfl
  cases hcode : m.insn pc with
  | next code =>
    have htranslation : ∀ is_stepin, (arm64_disassembler m).insn (pc + 0) is_stepin =
        ⟨4, code, false, is_stepin⟩ := by
      intro is_stepin
      simp only [arm64_disassembler, Nat.add_zero, hcode]
    simp only [block_guests, guests_from, htranslation, Nat.zero_add, true_or, if_true, hstops,
      Bool.false_eq_true, if_false]
    exact ⟨_, rfl⟩
  | exit code =>
    have hsame : code true = code false := by
      rw [hcode] at halike
      exact halike
    have htranslation : ∀ is_stepin, (arm64_disassembler m).insn (pc + 0) is_stepin =
        ⟨4, code false, true, false⟩ := by
      intro is_stepin
      simp only [arm64_disassembler, Nat.add_zero, hcode]
      cases is_stepin with
      | false => rfl
      | true => rw [hsame]
    simp only [block_guests, guests_from, htranslation, true_or, if_true]
    exact List.prefix_rfl

/-- The code that `find_insn_offset` regenerates is that of the block of the cache, in every
    memory profile and on both hosts: for every ARM block, for every Thumb block that was not
    translated from inside an IT block, and for every arm64 block unless it is a single step over
    an instruction whose code depends on it. -/
theorem retranslation_reproduces (profile : Fin 4) (pc : Nat) :
    (∀ m : arm_memory, Reproduces (arm_disassembler m) (max_insn profile) pc () ()) ∧
    (∀ (m : thumb_memory) itstate, Arm.inItBlock itstate = false →
      Reproduces (thumb_disassembler m) (max_insn profile) pc itstate 0) ∧
    ∀ (m : arm64_memory) is_stepin, (is_stepin = true → (m.insn pc).SteppedAlike) →
      Reproduces (arm64_disassembler m) (max_insn profile) pc is_stepin false := by
  have hle := max_insn_le profile
  refine ⟨?_, ?_, ?_⟩
  · intro m
    apply reproduces_of_prefix
    apply guests_prefix (R := fun _ _ => True) _ pc ?_ ?_ hle
    · trivial
    · exact fun pc f f' _ => ⟨rfl, rfl, rfl, trivial⟩
    · exact fun f f' _ => rfl
  · intro m itstate hout
    apply reproduces_of_prefix
    apply guests_prefix (R := SameIt) _ pc ?_ ?_ hle
    · exact .inr ⟨hout, rfl⟩
    · exact fun pc s s' h => thumb_same m pc h
    · exact fun s s' _ => rfl
  · intro m is_stepin halike
    apply reproduces_of_prefix
    cases is_stepin with
    | false =>
      apply guests_prefix (R := fun f f' => f = false ∧ f' = false) _ pc ?_ ?_ hle
      · exact ⟨rfl, rfl⟩
      · rintro pc f f' ⟨rfl, rfl⟩
        refine ⟨rfl, rfl, rfl, ?_⟩
        simp only [arm64_disassembler]
        cases m.insn pc with
        | next code => exact ⟨rfl, rfl⟩
        | exit code => exact ⟨rfl, rfl⟩
      · exact fun f f' h => h.2
    | true =>
      -- the flags differ at the start, and the first instruction is the only one that sees it
      obtain ⟨n, hn⟩ : ∃ n, max_insn profile = n + 1 := by
        refine ⟨max_insn profile - 1, ?_⟩
        have : 0 < max_insn profile := by
          revert profile
          decide
        omega
      rw [hn]
      exact stepin_prefix m pc (halike rfl) n 39

/-! ### An instruction inside an IT block, and a single step over a branch -/

/-- Nothing is emitted for a `nop`. -/
def nop_code : fragment := ⟨[], trivial, by simp⟩

/-- What `disassemble_thumb1_insn` emits before an instruction inside an IT block: the predicate,
    the next ITSTATE, and the exit when the condition does not hold. The helper is at 0x1000 and
    `helper_pc` at 0x180. -/
def it_predicate (pc : Nat) (disa_itstate : BitVec 32) : fragment where
  insns := [.mov .w32 ⟨.w32, 0⟩ ((disa_itstate >>> 4).setWidth 64), .read_context .w32 ⟨.w32, 1⟩ 64,
    .mov .w64 ⟨.w64, 2⟩ 0x1000,
    .mov .w32 ⟨.w32, 3⟩ (BitVec.ofNat 64 pc), .write_context .w32 ⟨.w32, 3⟩ 0x180,
    .call ⟨.w64, 2⟩ ![some ⟨.w32, 0⟩, some ⟨.w32, 1⟩, none, none] (some ⟨.w32, 4⟩),
    .mov .w32 ⟨.w32, 5⟩ 0, .write_context .w32 ⟨.w32, 5⟩ 0x180,
    .mov .w32 ⟨.w32, 6⟩ ((Arm.nextItState disa_itstate).setWidth 64),
    .write_context .w32 ⟨.w32, 6⟩ 76,
    .mov .w32 ⟨.w32, 7⟩ (BitVec.ofNat 64 (pc + 2)), .write_context .w32 ⟨.w32, 7⟩ r15_offset,
    .mov .w64 ⟨.w64, 8⟩ (BitVec.ofNat 64 (pc + 2)), .exit ⟨.w64, 8⟩ (some ⟨.w32, 4⟩)]
  ssa := by
    simp [Ssa, irInstruction.typed, irInstruction.reads, irInstruction.dst, List.reduceOption,
      List.ofFn_succ]
  plain := by simp

/-- A `nop` at 0x8001, and a branch to itself at 0x8003. -/
def nop_then_branch : thumb_memory := fun pc =>
  if pc = 0x8001 then ⟨false, none, nop_code, it_predicate pc, false⟩
  else ⟨false, none, arm_exit pc, fun _ => arm_exit pc, true⟩

/-- `dis_brk`, with `arm64_gdb_breakpoint_instruction` at 0x3000 and `helper_pc` at 0x340. -/
def brk_code (pc : Nat) : fragment where
  insns := [.mov .w64 ⟨.w64, 0⟩ (BitVec.ofNat 64 pc), .write_context .w64 ⟨.w64, 0⟩ pc_offset,
    .mov .w64 ⟨.w64, 1⟩ 0x3000,
    .mov .w64 ⟨.w64, 2⟩ (BitVec.ofNat 64 pc), .write_context .w64 ⟨.w64, 2⟩ 0x340,
    .call ⟨.w64, 1⟩ (fun _ => none) none,
    .mov .w64 ⟨.w64, 3⟩ 0, .write_context .w64 ⟨.w64, 3⟩ 0x340,
    .mov .w64 ⟨.w64, 4⟩ (BitVec.ofNat 64 pc), .exit ⟨.w64, 4⟩ none]
  ssa := by simp [Ssa, irInstruction.typed, irInstruction.reads, irInstruction.dst]
  plain := by simp

/-- A `nop` at 0x8000, a branch to itself at 0x8004, and breakpoints after it. -/
def nop_then_branch64 : arm64_memory where
  insn pc := if pc = 0x8000 then .next nop_code
    else if pc = 0x8004 then .exit (mk_exit 0x2000 0x340 pc pc)
    else .exit fun _ => brk_code pc
  arm64_gdb_stepin_instruction := 0x2000
  helper_pc := 0x340

/-- The block of the `nop` is reproduced when it was translated outside IT blocks, and on arm64
    also after a single step, as that of the breakpoint is. -/
theorem retranslation_reproduces_nop :
    (Arm.inItBlock 0 = false ∧ Reproduces (thumb_disassembler nop_then_branch) (max_insn 0) 0x8001 0 0) ∧
    (x86_64.allocateRegisters (x86_64.allocateInstructions
      (disassemble (thumb_disassembler nop_then_branch) (max_insn 0) 0x8001 0))).isSome ∧
    (x86_64.allocateRegisters (x86_64.allocateInstructions
      (disassemble_with_marker (thumb_disassembler nop_then_branch) 40 0x8001 0))).isSome ∧
    ((nop_then_branch64.insn 0x8000).SteppedAlike ∧
      Reproduces (arm64_disassembler nop_then_branch64) (max_insn 0) 0x8000 true false) ∧
    (nop_then_branch64.insn 0x8008).SteppedAlike ∧
      Reproduces (arm64_disassembler nop_then_branch64) (max_insn 0) 0x8008 true false :=
  ⟨⟨rfl, (retranslation_reproduces 0 0x8001).2.1 nop_then_branch 0 rfl⟩, rfl, rfl,
    ⟨trivial, (retranslation_reproduces 0 0x8000).2.2 nop_then_branch64 true fun _ => trivial⟩,
    rfl, (retranslation_reproduces 0 0x8008).2.2 nop_then_branch64 true fun _ => rfl⟩

/-- Inside an IT block the predicate of the `nop` is missing in the second translation; after a
    single step over the branch, the call of the debugger is. -/
theorem it_block_not_reproduced :
    ¬ Reproduces (thumb_disassembler nop_then_branch) (max_insn 0) 0x8001 0x08 0 ∧
    ¬ Reproduces (arm64_disassembler nop_then_branch64) (max_insn 0) 0x8004 true false := by
  refine ⟨?_, ?_⟩
  · intro h
    obtain ⟨a, ha⟩ := Option.isSome_iff_exists.mp (show (x86_64.allocateRegisters
      (x86_64.allocateInstructions (disassemble (thumb_disassembler nop_then_branch) (max_insn 0)
        0x8001 0x08))).isSome from rfl)
    obtain ⟨a', ha'⟩ := Option.isSome_iff_exists.mp (show (x86_64.allocateRegisters
      (x86_64.allocateInstructions (disassemble_with_marker (thumb_disassembler nop_then_branch) 40
        0x8001 0))).isSome from rfl)
    obtain ⟨g', hg', hcode⟩ := (h.1 a a' ha ha').code 0 _ rfl
    obtain rfl := Option.some.inj hg'
    exact absurd (congrArg List.length (hcode [])) (by simp only [List.length_map]; decide)
  · intro h
    obtain ⟨a, ha⟩ := Option.isSome_iff_exists.mp (show (x86_64.allocateRegisters
      (x86_64.allocateInstructions (disassemble (arm64_disassembler nop_then_branch64) (max_insn 0)
        0x8004 true))).isSome from rfl)
    obtain ⟨a', ha'⟩ := Option.isSome_iff_exists.mp (show (x86_64.allocateRegisters
      (x86_64.allocateInstructions (disassemble_with_marker (arm64_disassembler nop_then_branch64) 40
        0x8004 false))).isSome from rfl)
    obtain ⟨g', hg', hcode⟩ := (h.1 a a' ha ha').code 0 _ rfl
    obtain rfl := Option.some.inj hg'
    exact absurd (congrArg List.length (hcode [])) (by simp only [List.length_map]; decide)

end Umeq.Signal
