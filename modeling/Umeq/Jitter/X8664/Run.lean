import Umeq.Jitter.X8664.Host
import Umeq.Jitter.X8664.Lowered

/-! # Running the generated code

    The code of a program is the code of its lowered instructions, one after the
    other. Here is what one of them does to the allocated registers, the memory and
    the calls made, and where its operands and its result lie.

    * `passes_gen`, `leaves_gen`: what the code of one instruction does.
    * `Compiled`: a program of the builders and the code that `jit` has made of it.
    * `Compiled.rule`: what holds at the start and is kept by every instruction holds
      at every point of the code.
-/

namespace Umeq.Jitter.X86_64

open Bytes Words X86

/-! ## One instruction -/

/-- The host register of a virtual one, when its index is that of a register. -/
def place (index : Nat → Nat) (v : Nat) : Fin 8 := Fin.ofNat 8 (index v)

theorem place_val {index : Nat → Nat} {v : Nat} (h : index v < 8) : (place index v).val = index v :=
  Nat.mod_eq_of_lt h

section instruction

variable (h : helpers) (b : Nat → Fin 8) (c : cpu)

/-- The value that an instruction gives to the register that it writes. -/
def x86Instruction.value : x86Instruction → BitVec 64
  | .mov_const _ value => value
  | .load w dst address => merge w (view c (b dst))
      (BitVec.ofNat 64 (c.mem.load (view c (b address)).toNat w.bytes))
  | .read w dst offset => merge w (view c (b dst))
      (BitVec.ofNat 64 (c.mem.load (context_address (c.regs rdi) offset) w.bytes))
  | .binop w type _ op1 op2 => low w (host_binop type w (view c (b op1)) (view c (b op2)))
  | .ite _ pred trueOp falseOp =>
    if view c (b pred) ≠ 0 then view c (b trueOp) else view c (b falseOp)
  | .cast type _ op => host_cast type (view c (b op))
  | .call address param _ => (called h c (b address) fun i => (param i).map b).2
  | .store _ _ _ | .exit _ _ _ | .write _ _ _ | .marker _ => 0

/-- The memory after an instruction. -/
def x86Instruction.memory : x86Instruction → Mem
  | .store w src address =>
    c.mem.store (view c (b address)).toNat w.bytes (view c (b src)).toNat
  | .write w src offset =>
    c.mem.store (context_address (c.regs rdi) offset) w.bytes (view c (b src)).toNat
  | .call address param _ => (called h c (b address) fun i => (param i).map b).1
  | _ => c.mem

/-- The calls that an instruction makes. -/
def x86Instruction.makes : x86Instruction → List (BitVec 64 × (Reg → BitVec 64))
  | .call address param _ =>
    [(view c (b address), (at_call c (b address) fun i => (param i).map b).regs)]
  | _ => []

/-- The instruction gives control back. -/
def x86Instruction.leaves : x86Instruction → Prop
  | .exit _ pred _ => ∀ q, pred = some q → view c (b q) ≠ 0
  | _ => False

/-- From `c` to `c'` an instruction has been executed. -/
structure Executed (insn : x86Instruction) (c' : cpu) : Prop where
  view : view c' = with_result (view c) (insn.dst.map b) (insn.value h b c)
  rdi : c'.regs rdi = c.regs rdi
  mem : c'.mem = insn.memory h b c
  stack : c'.stack = c.stack
  calls : c'.calls = c.calls ++ insn.makes b c

variable {h b c} {p : program} {k : clobber} {insn : x86Instruction} {hole code : List UInt8}

theorem Effect.executed {c' : cpu} {d : Nat} {v : BitVec 64}
    (he : Effect c c' (Function.update (X86_64.view c) (b d) v) c.mem) (hdst : insn.dst = some d)
    (hvalue : insn.value h b c = v) (hmem : insn.memory h b c = c.mem) (hmakes : insn.makes b c = []) :
    Executed h b c insn c' := by
  refine ⟨?_, he.rdi, he.mem.trans hmem.symm, he.stack, ?_⟩
  · rw [he.view, hdst, hvalue]
    rfl
  · rw [he.calls, hmakes, List.append_nil]

theorem Effect.executed_none {c' : cpu} {m : Mem} (he : Effect c c' (X86_64.view c) m)
    (hdst : insn.dst = none) (hmem : insn.memory h b c = m) (hmakes : insn.makes b c = []) :
    Executed h b c insn c' := by
  refine ⟨?_, he.rdi, he.mem.trans hmem.symm, he.stack, ?_⟩
  · rw [he.view, hdst]
    rfl
  · rw [he.calls, hmakes, List.append_nil]

/-- The code of an instruction that does not give control back. -/
theorem passes_gen (hgen : gen (Fin.val ∘ b) hole insn = some code) (hhole : hole.length = 8)
    (hapart : ∀ d, insn.dst = some d → ∀ v ∈ insn.reads, b d ≠ b v) (hstays : ¬ insn.leaves b c) :
    ∃ c', Passes p (host h k) code c c' ∧ Executed h b c insn c' := by
  cases insn with
  | mov_const dst value =>
    obtain rfl := Option.some.inj hgen
    obtain ⟨c', hpass, he⟩ := passes_mov_const (p := p) (e := host h k) (c := c) (b dst) value
    exact ⟨c', hpass, he.executed rfl rfl rfl rfl⟩
  | load w dst address =>
    obtain rfl := Option.some.inj hgen
    obtain ⟨c', hpass, he⟩ := passes_load (p := p) (e := host h k) (c := c) w (b dst) (b address)
    exact ⟨c', hpass, he.executed rfl rfl rfl rfl⟩
  | store w src address =>
    obtain rfl := Option.some.inj hgen
    obtain ⟨c', hpass, he⟩ := passes_store (p := p) (e := host h k) (c := c) w (b src) (b address)
    exact ⟨c', hpass, he.executed_none rfl rfl rfl⟩
  | binop w type dst op1 op2 =>
    obtain rfl := Option.some.inj hgen
    obtain ⟨c', hpass, he⟩ := passes_op (p := p) (e := host h k) (c := c) type w
      (hapart dst rfl op1 (by simp [x86Instruction.reads]))
      (hapart dst rfl op2 (by simp [x86Instruction.reads]))
    exact ⟨c', hpass, he.executed rfl rfl rfl rfl⟩
  | ite dst pred trueOp falseOp =>
    obtain rfl := Option.some.inj hgen
    obtain ⟨c', hpass, he⟩ := passes_ite (p := p) (e := host h k) (c := c) (s := b falseOp)
      (hapart dst rfl pred (by simp [x86Instruction.reads]))
      (hapart dst rfl trueOp (by simp [x86Instruction.reads]))
    exact ⟨c', hpass, he.executed rfl rfl rfl rfl⟩
  | cast type dst op =>
    obtain rfl := Option.some.inj hgen
    obtain ⟨c', hpass, he⟩ := passes_cast (p := p) (e := host h k) (c := c) type
      (hapart dst rfl op (by simp [x86Instruction.reads]))
    exact ⟨c', hpass, he.executed rfl rfl rfl rfl⟩
  | exit value pred is_patchable =>
    obtain rfl := Option.some.inj hgen
    -- it goes on because its predicate is zero
    obtain ⟨q, rfl, hq⟩ : ∃ q, pred = some q ∧ view c (b q) = 0 := by
      simpa [x86Instruction.leaves] using hstays
    obtain ⟨c', hpass, he⟩ := passes_exit (p := p) (e := host h k) (b value) (b q) is_patchable
      hhole hq
    exact ⟨c', hpass, he.executed_none rfl rfl rfl⟩
  | call address param result =>
    obtain rfl := Option.some.inj hgen
    obtain ⟨c', hpass, hmem, hview, hrdi, hstack, hcalls⟩ := passes_call (p := p) (c := c) h k
      (b address) (fun i => (param i).map b) (result.map b)
    simp only [Option.map_map] at hpass
    exact ⟨c', hpass, hview, hrdi, hmem, hstack, hcalls⟩
  | read w dst offset =>
    obtain rfl := Option.some.inj hgen
    obtain ⟨c', hpass, he⟩ := passes_read (p := p) (e := host h k) (c := c) w (b dst) offset
    exact ⟨c', hpass, he.executed rfl rfl rfl rfl⟩
  | write w src offset =>
    obtain rfl := Option.some.inj hgen
    obtain ⟨c', hpass, he⟩ := passes_write (p := p) (e := host h k) (c := c) w (b src) offset
    exact ⟨c', hpass, he.executed_none rfl rfl rfl⟩
  | marker _ => cases hgen

/-- The code of an exit that is taken. -/
theorem leaves_gen {value : Nat} {pred : Option Nat} {is_patchable : Bool} {e : externals}
    (hgen : gen (Fin.val ∘ b) hole (.exit value pred is_patchable) = some code)
    (hleaves : (x86Instruction.exit value pred is_patchable).leaves b c) (hstack : c.stack = []) :
    Leaves p e code c (Exits c (view c (b value))) := by
  obtain rfl := Option.some.inj hgen
  have hleave := leaves_exit (p := p) (e := e) (c := c) (b value) (pred.map b) is_patchable hole
    hstack (by
      intro q hq
      obtain ⟨v, hv, rfl⟩ := Option.map_eq_some_iff.mp hq
      exact hleaves v hv)
  rw [Option.map_map] at hleave
  exact hleave

end instruction

/-! ## The whole program -/

/-- The code of each instruction. -/
def pieces (index : Nat → Nat) (hole : Nat → List UInt8) : Nat → List x86Instruction →
    List (List UInt8)
  | _, [] => []
  | k, insn :: insns => (gen index (hole k) insn).getD [] :: pieces index hole (k + 1) insns

theorem generateCode_pieces {index : Nat → Nat} {hole : Nat → List UInt8} {k : Nat}
    {insns : List x86Instruction} {code : List UInt8}
    (h : generateCode index hole k insns = some code) :
    code = (pieces index hole k insns).flatten ∧
      (pieces index hole k insns).length = insns.length ∧
      ∀ m insn, insns[m]? = some insn → ∃ piece, gen index (hole (k + m)) insn = some piece ∧
        (pieces index hole k insns)[m]? = some piece := by
  induction insns generalizing k code with
  | nil =>
    obtain rfl := Option.some.inj h
    exact ⟨rfl, rfl, fun m insn hm => by cases hm⟩
  | cons insn insns ih =>
    obtain ⟨piece, hgen, hrest⟩ := Option.bind_eq_some_iff.mp h
    obtain ⟨rest, hcode, hsome⟩ := Option.bind_eq_some_iff.mp hrest
    obtain rfl := Option.some.inj hsome
    obtain ⟨hflat, hlen, hat⟩ := ih hcode
    refine ⟨?_, ?_, ?_⟩
    · simp only [pieces, hgen, Option.getD_some, List.flatten_cons, ← hflat]
    · simp only [pieces, List.length_cons, hlen]
    · intro m insn' hm
      cases m with
      | zero =>
        obtain rfl := Option.some.inj hm
        exact ⟨piece, hgen, by simp [pieces, hgen]⟩
      | succ m =>
        obtain ⟨piece', hgen', hpiece'⟩ := hat m insn' hm
        rw [Nat.add_assoc, Nat.add_comm 1 m] at hgen'
        exact ⟨piece', hgen', hpiece'⟩

/-- A program of the builders and the code that `jit` makes of it. The holes in the code
    are eight bytes each. -/
structure Compiled (j : jitter) (p : program) where
  built : Built j
  hole : Nat → List UInt8
  holes : ∀ k, (hole k).length = 8
  places : LinearScan.places Nat
  allocated : allocateRegisters (allocateInstructions j) = some places
  emitted : generateCode places.index hole 0 (allocateInstructions j).insns = some p.code

theorem allocated_of_jit {j : jitter} {hole : Nat → List UInt8} {code : List UInt8}
    (hjit : jit j hole = some code) : (allocateRegisters (allocateInstructions j)).isSome := by
  cases ha : allocateRegisters (allocateInstructions j) with
  | none => simp [jit, ha] at hjit
  | some a => rfl

/-- The code of `jit` at an address. -/
def compile {j : jitter} (hbuilt : Built j) {hole : Nat → List UInt8}
    (holes : ∀ k, (hole k).length = 8) {code : List UInt8} (hjit : jit j hole = some code)
    (base : Nat) : Compiled j ⟨base, code⟩ where
  built := hbuilt
  hole := hole
  holes := holes
  places := (allocateRegisters (allocateInstructions j)).get (allocated_of_jit hjit)
  allocated := (Option.some_get _).symm
  emitted := by
    obtain ⟨a, ha⟩ := Option.isSome_iff_exists.mp (allocated_of_jit hjit)
    simp only [ha, Option.get_some]
    simpa only [jit, ha, Option.bind_eq_bind, Option.bind_some] using hjit

/-- The state in which the code is entered. -/
structure Entry (c : cpu) : Prop where
  rip : c.rip = 0
  stack : c.stack = []

section compiled

variable {j : jitter} {p : program} (x : Compiled j p) {h : helpers} {r : clobber} {c₀ c c' : cpu}
  {k v d : Nat} {insn : x86Instruction}

/-- The host register of a virtual one. -/
def Compiled.place (v : Nat) : Fin 8 := X86_64.place x.places.index v

/-- Where the code of an instruction starts. -/
def Compiled.point (k : Nat) : Nat :=
  start (pieces x.places.index x.hole 0 (allocateInstructions j).insns) k

/-- Before instruction `k` a register is live: it has been defined and is still to be
    read. -/
def Live (j : jitter) (k v : Nat) : Prop :=
  v ∈ dsts ((allocateInstructions j).insns.take k) ∧
    LinearScan.is_live (allocateInstructions j).lastReadIndex k v

/-- A run from `c₀` has come to the start of instruction `k` in the state `c`. -/
structure Compiled.At (e : externals) (c₀ : cpu) (k : Nat) (c : cpu) : Prop where
  le : k ≤ (allocateInstructions j).insns.length
  reaches : Reaches p e c₀ c
  rip : c.rip = x.point k

include x in
theorem Compiled.typed : Typed (virtual_width j) (allocateInstructions j) :=
  (tracks_allocateInstructions (wellBuilt_of_built x.built)).toTyped

/-- The places of the instructions. -/
theorem Compiled.placed (hinsn : (allocateInstructions j).insns[k]? = some insn) :
    LinearScan.Placed REG_NUMBER (allocateInstructions j).lastReadIndex x.places.index k
      (dsts ((allocateInstructions j).insns.take k)) insn.access := by
  have hassigned := LinearScan.scan_assigned x.typed.ssa (LinearScan.good_start _ _ _) x.allocated
  have hplaced := hassigned.at (m := k) (i := insn.access) (by rw [List.getElem?_map, hinsn]; rfl)
  rwa [← List.map_take, writes_access, List.nil_append, Nat.zero_add] at hplaced

theorem Compiled.index_lt (hv : v ∈ dsts (allocateInstructions j).insns) : x.places.index v < 8 := by
  obtain ⟨insn, hmem, hdst⟩ := List.mem_filterMap.mp hv
  obtain ⟨k, hk⟩ := List.mem_iff_getElem?.mp hmem
  exact (x.placed hk).lt v (Option.mem_toList.mpr hdst)

theorem dsts_take_subset {insns : List x86Instruction} {k v : Nat} (hv : v ∈ dsts (insns.take k)) :
    v ∈ dsts insns := by
  rw [← List.take_append_drop k insns, dsts_append]
  exact List.mem_append_left _ hv

include x in
/-- What an instruction reads is live. -/
theorem Compiled.live_of_read (hinsn : (allocateInstructions j).insns[k]? = some insn)
    (hv : v ∈ insn.reads) : Live j k v :=
  ⟨x.typed.reads k insn hinsn v hv, LinearScan.is_live_iff.mpr (x.typed.last k insn hinsn v hv)⟩

/-- What an instruction writes is apart from what is live. -/
theorem Compiled.apart (hinsn : (allocateInstructions j).insns[k]? = some insn)
    (hdst : insn.dst = some d) (hlive : Live j k v) : x.place d ≠ x.place v := by
  intro he
  have hplaced := x.placed hinsn
  have hd : d ∈ insn.access.writes := Option.mem_toList.mpr hdst
  refine hplaced.live d hd v hlive.1 hlive.2 ?_
  have hval := congrArg Fin.val he
  rwa [Compiled.place, Compiled.place, place_val (hplaced.lt d hd),
    place_val (x.index_lt (dsts_take_subset hlive.1))] at hval

/-- The code of an instruction, with the places of its operands. -/
theorem Compiled.gen_at (hinsn : (allocateInstructions j).insns[k]? = some insn) :
    ∃ piece, gen (Fin.val ∘ x.place) (x.hole k) insn = some piece ∧
      (pieces x.places.index x.hole 0 (allocateInstructions j).insns)[k]? = some piece := by
  obtain ⟨piece, hgen, hpiece⟩ := (generateCode_pieces x.emitted).2.2 k insn hinsn
  rw [Nat.zero_add] at hgen
  refine ⟨piece, ?_, hpiece⟩
  rw [← hgen]
  refine gen_congr ?_ ?_
  · intro v hv
    exact place_val (x.index_lt (dsts_take_subset (x.live_of_read hinsn hv).1))
  · intro d hd
    exact place_val ((x.placed hinsn).lt d (Option.mem_toList.mpr hd))

/-- What is live after an instruction was live before it, or is its result. -/
theorem live_succ (hinsn : (allocateInstructions j).insns[k]? = some insn)
    (hlive : Live j (k + 1) v) : insn.dst = some v ∨ Live j k v := by
  obtain ⟨hmem, hread⟩ := hlive
  obtain ⟨l, hl, hle⟩ := LinearScan.is_live_iff.mp hread
  rw [List.take_add_one, hinsn, Option.toList_some, dsts_append, dsts_singleton] at hmem
  rcases List.mem_append.mp hmem with hmem | hmem
  · exact .inr ⟨hmem, LinearScan.is_live_iff.mpr ⟨l, hl, by omega⟩⟩
  · exact .inl (Option.mem_toList.mp hmem)

/-- What is live and not the result keeps its value. -/
theorem Compiled.kept (hinsn : (allocateInstructions j).insns[k]? = some insn)
    (hexec : Executed h x.place c insn c') (hlive : Live j k v) :
    view c' (x.place v) = view c (x.place v) := by
  rw [hexec.view]
  cases hdst : insn.dst with
  | none => rfl
  | some d =>
    simp only [Option.map_some, with_result]
    exact Function.update_of_ne (x.apart hinsn hdst hlive).symm _ _

/-- The result of an instruction. -/
theorem Executed.result {b : Nat → Fin 8} (hexec : Executed h b c insn c') (hdst : insn.dst = some d) :
    X86_64.view c' (b d) = insn.value h b c := by
  rw [hexec.view, hdst, Option.map_some, with_result, Function.update_self]

/-- An instruction that does not give control back. -/
theorem Compiled.passes (hinsn : (allocateInstructions j).insns[k]? = some insn)
    (hstays : ¬ insn.leaves x.place c) :
    ∃ piece, (pieces x.places.index x.hole 0 (allocateInstructions j).insns)[k]? = some piece ∧
      ∃ c', Passes p (host h r) piece c c' ∧ Executed h x.place c insn c' := by
  obtain ⟨piece, hgen, hpiece⟩ := x.gen_at hinsn
  exact ⟨piece, hpiece, passes_gen hgen (x.holes k)
    (fun d hd v hv => x.apart hinsn hd (x.live_of_read hinsn hv)) hstays⟩

theorem Executed.with_rip {b : Nat → Fin 8} (hexec : Executed h b c insn c') (n : Nat) :
    Executed h b c insn { c' with rip := n } :=
  ⟨hexec.view, hexec.rdi, hexec.mem, hexec.stack, hexec.calls⟩

/-- The run goes on to the next instruction. -/
theorem Compiled.next (hat : x.At (host h r) c₀ k c)
    (hinsn : (allocateInstructions j).insns[k]? = some insn) (hstays : ¬ insn.leaves x.place c) :
    ∃ c', x.At (host h r) c₀ (k + 1) c' ∧ Executed h x.place c insn c' := by
  obtain ⟨hk, -⟩ := List.getElem?_eq_some_iff.mp hinsn
  obtain ⟨piece, hpiece, c', hpass, hexec⟩ := x.passes (h := h) (r := r) hinsn hstays
  have hclimb := hpass.climbs (generateCode_pieces x.emitted).1 hpiece hat.rip
  exact ⟨_, ⟨hk, hat.reaches.trans hclimb.reaches, rfl⟩, hexec.with_rip _⟩

/-- What holds at the start and is kept by every instruction holds at every point of the
    code. -/
theorem Compiled.rule {I : Nat → cpu → Prop} (hentry : Entry c₀) (hstart : I 0 c₀)
    (hkeep : ∀ k insn c c', (allocateInstructions j).insns[k]? = some insn →
      x.At (host h r) c₀ k c → I k c → Executed h x.place c insn c' → I (k + 1) c')
    (hat : x.At (host h r) c₀ k c) : c.stack = [] ∧ I k c := by
  obtain ⟨hcode, hlen, -⟩ := generateCode_pieces x.emitted
  refine pieces_rule (I := fun k c => c.stack = [] ∧ I k c) hcode hentry.rip
    ⟨hentry.stack, hstart⟩ ?_ (by rw [hlen]; exact hat.le) hat.reaches hat.rip
  intro k piece c hpiece hreach hrip ⟨hstack, hI⟩
  have hk : k < (allocateInstructions j).insns.length := by
    rw [← hlen]
    exact (List.getElem?_eq_some_iff.mp hpiece).1
  have hinsn := List.getElem?_eq_getElem hk
  have hat : x.At (host h r) c₀ k c := ⟨Nat.le_of_lt hk, hreach, hrip⟩
  by_cases hleaves : ((allocateInstructions j).insns[k]).leaves x.place c
  · obtain ⟨piece', hgen, hpiece'⟩ := x.gen_at hinsn
    obtain rfl := Option.some.inj (hpiece.symm.trans hpiece')
    refine .inr ?_
    -- only an exit gives control back
    generalize (allocateInstructions j).insns[k] = insn at hleaves hgen
    cases insn with
    | exit value pred is_patchable => exact ⟨_, leaves_gen hgen hleaves hstack⟩
    | _ => exact hleaves.elim
  · obtain ⟨piece', hpiece', c', hpass, hexec⟩ := x.passes (h := h) (r := r) hinsn hleaves
    obtain rfl := Option.some.inj (hpiece.symm.trans hpiece')
    refine .inl ⟨c', hpass, ?_, ?_⟩
    · exact hexec.stack.trans hstack
    · exact hkeep k _ c _ hinsn hat hI (hexec.with_rip _)

/-- Between instructions nothing is left on the stack. -/
theorem Compiled.stack_nil (hentry : Entry c₀) (hat : x.At (host h r) c₀ k c) : c.stack = [] :=
  (x.rule (I := fun _ _ => True) hentry trivial (fun _ _ _ _ _ _ _ _ => trivial) hat).1

/-- A constant that the first instruction moves is there when the second one starts. -/
theorem Compiled.first_const {value : BitVec 64} (hentry : Entry c₀)
    (hinsn : (allocateInstructions j).insns[0]? = some (.mov_const v value))
    (hat : x.At (host h r) c₀ 1 c) : view c (x.place v) = value := by
  refine (x.rule (I := fun k c => k = 1 → view c (x.place v) = value) hentry ?_ ?_ hat).2 rfl
  · intro h
    cases h
  · intro k insn c c' hinsn' _ _ hexec hk
    obtain rfl : k = 0 := by omega
    obtain rfl := Option.some.inj (hinsn.symm.trans hinsn')
    exact hexec.result rfl

/-- An exit that is taken. -/
theorem Compiled.exits {value : Nat} {pred : Option Nat} {is_patchable : Bool} (hentry : Entry c₀)
    (hat : x.At (host h r) c₀ k c)
    (hinsn : (allocateInstructions j).insns[k]? = some (.exit value pred is_patchable))
    (hleaves : (x86Instruction.exit value pred is_patchable).leaves x.place c) :
    ∃ c₁ c₂, Reaches p (host h r) c₀ c₁ ∧ step p (host h r) c₁ = some (.done c₂) ∧
      Exits c (view c (x.place value)) c₂ := by
  obtain ⟨piece, hgen, hpiece⟩ := x.gen_at hinsn
  have hleave := leaves_gen (p := p) (e := host h r) hgen hleaves (x.stack_nil hentry hat)
  obtain ⟨c₁, c₂, hclimb, -, hdone, hexits⟩ :=
    hleave _ _ ((generateCode_pieces x.emitted).1.trans (flatten_at hpiece))
  have hself : { c with rip := ((pieces x.places.index x.hole 0
      (allocateInstructions j).insns).take k).flatten.length } = c := by
    show { c with rip := x.point k } = c
    rw [← hat.rip]
  rw [hself] at hclimb
  exact ⟨c₁, c₂, hat.reaches.trans hclimb.reaches, hdone, hexits⟩

end compiled

end Umeq.Jitter.X86_64
