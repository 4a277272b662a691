import Umeq.Jitter.X8664.Allocation
import Umeq.Jitter.X8664.Canonical
import Umeq.Jitter.X8664.Simulation

/-! # Correctness of the x86_64 back end

    `jit` makes code for every program of the builders that has no marker and fits in
    the eight registers (at each instruction, those live before it and the one it writes),
    and the code does what the program means (`jit_correct`). An operand of which the host
    looks at more than its width must hold no more than its value; it is so in particular
    when all registers do (`Compiled.Kept.tested`).
-/

namespace Umeq.Jitter.X86_64

open Bytes Words X86

/-! ## There is code -/

theorem lowers_marker {last B : Nat → Option Nat} {insns : List irInstruction}
    {xs : List x86Instruction} (h : Lowers last B insns xs) {value : BitVec 32}
    (hmem : .marker value ∈ xs) : .marker value ∈ insns := by
  induction insns generalizing xs with
  | nil =>
    subst h
    cases hmem
  | cons insn insns ih =>
    obtain ⟨piece, rest, rfl, hstands, hrest⟩ := h
    rcases List.mem_append.mp hmem with hmem | hmem
    · cases hstands with
      | one b _ p _ _ _ =>
        have hlower := List.mem_singleton.mp hmem
        cases insn with
        | marker v =>
          obtain rfl := x86Instruction.marker.inj hlower
          exact List.mem_cons_self
        | _ => cases hlower
      | dropped _ _ _ _ _ => cases hmem
      | asr _ _ _ _ _ _ _ _ _ _ => simp at hmem
    · exact List.mem_cons_of_mem _ (ih hrest hmem)

theorem generateCode_isSome (index : Nat → Nat) (hole : Nat → List UInt8) {k : Nat}
    {insns : List x86Instruction} (h : ∀ value, .marker value ∉ insns) :
    (generateCode index hole k insns).isSome := by
  induction insns generalizing k with
  | nil => rfl
  | cons insn insns ih =>
    obtain ⟨code, hcode⟩ : ∃ code, gen index (hole k) insn = some code := by
      cases insn with
      | marker v => exact absurd List.mem_cons_self (h v)
      | _ => exact ⟨_, rfl⟩
    obtain ⟨rest, hrest⟩ := Option.isSome_iff_exists.mp
      (ih (k := k + 1) fun value hmem => h value (List.mem_cons_of_mem _ hmem))
    simp [generateCode, hcode, hrest]

/-- The registers of the lowered program fit in those of the host. -/
def FitsHost (j : jitter) : Prop :=
  LinearScan.Fits REG_NUMBER (allocateInstructions j).lastReadIndex 0 []
    ((allocateInstructions j).insns.map x86Instruction.access)

instance (j : jitter) : Decidable (FitsHost j) := inferInstanceAs (Decidable (LinearScan.Fits _ _ _ _ _))

theorem jit_isSome {j : jitter} (hbuilt : Built j) (hmarker : ∀ value, .marker value ∉ j.insns)
    (hfits : FitsHost j) (hole : Nat → List UInt8) : (jit j hole).isSome := by
  have hwell := wellBuilt_of_built hbuilt
  obtain ⟨a, ha⟩ := LinearScan.scan_isSome (tracks_allocateInstructions hwell).ssa hfits
    (LinearScan.good_start REG_NUMBER _ id)
  have hcode := generateCode_isSome a.index hole (k := 0) fun value hmem =>
    hmarker value (lowers_marker (lowers_allocateInstructions hwell) hmem)
  rw [jit, allocateRegisters, ha]
  exact hcode

/-! ## The code is right -/

theorem tested_subset_reads (W : Nat → width) (xi : x86Instruction) :
    ∀ v ∈ xi.tested W, v ∈ xi.reads := by
  intro v hv
  cases xi with
  | binop w type dst op1 op2 => cases type <;> simp_all [x86Instruction.tested, x86Instruction.reads]
  | cast type dst op | write w src offset =>
    simp only [x86Instruction.tested] at hv
    split_ifs at hv
    · exact hv
    · cases hv
  | exit value pred _ => exact List.mem_cons_of_mem _ hv
  | _ => simp_all [x86Instruction.tested, x86Instruction.reads]

/-- When all registers hold no more than their values, the tested operands do. -/
theorem Compiled.Kept.tested {j : jitter} {p : program} {x : Compiled j p} {h : helpers}
    {r : clobber} {c₀ : cpu} (hentry : Entry c₀) (hkept : x.Kept h r c₀) : x.Tested h r c₀ := by
  intro k c xi hat hinsn v hv
  exact clean_iff_lt.mpr (Compiled.Kept.canonical x hentry hkept k c hat v
    (x.live_of_read hinsn (tested_subset_reads _ xi v hv)))

/-- There is code for every program without markers that fits in the host registers, and
    the code gives the memory, the calls and the exit value that the program means. -/
theorem jit_correct {j : jitter} (hbuilt : Built j) (hmarker : ∀ value, .marker value ∉ j.insns)
    (hfits : FitsHost j) (hole : Nat → List UInt8) (holes : ∀ k, (hole k).length = 8) (base : Nat) :
    ∃ code, jit j hole = some code ∧ ∃ x : Compiled j ⟨base, code⟩, x.hole = hole ∧
      ∀ (h : helpers) (r : clobber) (c₀ : cpu) (env₀ : Nat → BitVec 64) (value : BitVec 64)
        (s : ir_state), Entry c₀ → x.Tested h r c₀ →
        ir_run h (c₀.regs rdi) j.insns ⟨env₀, c₀.mem, c₀.calls.map (seen_call h)⟩ = some (value, s) →
        Returns ⟨base, code⟩ h r c₀ value s := by
  obtain ⟨code, hjit⟩ := Option.isSome_iff_exists.mp (jit_isSome hbuilt hmarker hfits hole)
  refine ⟨code, hjit, compile hbuilt holes hjit base, rfl, ?_⟩
  intro h r c₀ env₀ value s hentry htested hrun
  exact Compiled.returns hentry htested hrun

/-! ### Two bytes that are compared -/

def compare_bytes : jitter :=
  let (j, left) := Jitter.add_mov_const .w8 5 resetJitter
  let (j, right) := Jitter.add_mov_const .w8 5 j
  let (j, equal) := (add_binop .CMPEQ .w8 left right j).getD (j, left)
  let (j, pc) := Jitter.add_mov_const .w64 8 j
  let j := (add_exit_cond pc (some equal) j).getD j
  let (j, pc) := Jitter.add_mov_const .w64 4 j
  (add_exit_cond pc none j).getD j

theorem built_compare_bytes : Built compare_bytes := by
  have hequal : Built _ := .binop .CMPEQ .w8 ⟨.w8, 0⟩ ⟨.w8, 1⟩
    (.mov_const .w8 5 (.mov_const .w8 5 .reset)) rfl rfl rfl
  have hcond : Built _ := .exit ⟨.w64, 3⟩ (some ⟨.w8, 2⟩) (.mov_const .w64 8 hequal) rfl (by
    rintro r ⟨⟩
    rfl) rfl
  refine .exit ⟨.w64, 4⟩ none (.mov_const .w64 4 hcond) rfl ?_ rfl
  rintro r ⟨⟩

theorem insns_compare_bytes : (allocateInstructions compare_bytes).insns =
    [.mov_const 0 5, .mov_const 1 5, .binop .w8 .CMPEQ 2 0 1, .mov_const 3 8, .exit 3 (some 2) true,
      .mov_const 4 4, .exit 4 none true] := rfl

/-- The constants are bytes, so that the comparison sees them as they are. -/
theorem kept_compare_bytes {p : program} (x : Compiled compare_bytes p) :
    x.Kept no_helpers no_clobber blank := by
  intro k c insn _ hinsn _
  rw [insns_compare_bytes] at hinsn
  match k, hinsn with
  | 0, hinsn | 1, hinsn | 3, hinsn | 5, hinsn =>
    obtain rfl := Option.some.inj hinsn
    simp only [x86Instruction.canonical]
    decide
  | 2, hinsn | 4, hinsn | 6, hinsn =>
    obtain rfl := Option.some.inj hinsn
    trivial

theorem compare_bytes_correct : Built compare_bytes ∧ (∀ value, .marker value ∉ compare_bytes.insns) ∧
    FitsHost compare_bytes ∧ ∃ code, jit compare_bytes no_hole = some code ∧
      ∃ s, Returns ⟨0, code⟩ no_helpers no_clobber blank 8 s := by
  have hmarker : ∀ value, .marker value ∉ compare_bytes.insns := by
    intro value hmem
    simp [compare_bytes, Jitter.add_mov_const, add_binop, add_exit_cond, jitter.add_dst, jitter.add,
      Jitter.allocateRegister, resetJitter, irBinopType.op2_type] at hmem
  have hfits : FitsHost compare_bytes := by decide
  obtain ⟨code, hjit, x, -, hall⟩ := jit_correct built_compare_bytes hmarker hfits no_hole
    (fun _ => rfl) 0
  obtain ⟨s, hrun⟩ : ∃ s, ir_run no_helpers (blank.regs rdi) compare_bytes.insns
      ⟨fun _ => 0, blank.mem, blank.calls.map (seen_call no_helpers)⟩ = some (8, s) := ⟨_, rfl⟩
  have htested := Compiled.Kept.tested entry_blank (kept_compare_bytes x)
  exact ⟨built_compare_bytes, hmarker, hfits, code, hjit, s, hall _ _ _ _ _ _ entry_blank htested hrun⟩

/-! ### Programs outside of these bounds -/

/-- A guest instruction marked for `findInsn`. -/
def marked : jitter :=
  let j := add_insn_marker 0 resetJitter
  let (j, pc) := Jitter.add_mov_const .w64 0 j
  (add_exit_cond pc none j).getD j

theorem built_marked : Built marked := by
  refine .exit ⟨.w64, 0⟩ none (.mov_const .w64 0 (.insn_marker 0 .reset)) rfl ?_ rfl
  rintro r ⟨⟩

/-- An arithmetic shift of a byte while six more bytes are live. It is lowered with three
    more registers. -/
def crowded : jitter :=
  let j := (List.range 7).foldl
    (fun j i => (Jitter.add_mov_const .w8 (BitVec.ofNat 64 i) j).1) resetJitter
  let (j, _) := (add_binop .ASR .w8 ⟨.w8, 0⟩ ⟨.w8, 1⟩ j).getD (j, ⟨.w8, 0⟩)
  let j := [2, 3, 4, 5, 6, 7].foldl (fun j i => add_write_context .w8 ⟨.w8, i⟩ 0 j) j
  let (j, pc) := Jitter.add_mov_const .w64 0 j
  (add_exit_cond pc none j).getD j

theorem built_crowded : Built crowded := by
  have hconsts : Built _ := .mov_const .w8 6 (.mov_const .w8 5 (.mov_const .w8 4 (.mov_const .w8 3
    (.mov_const .w8 2 (.mov_const .w8 1 (.mov_const .w8 0 .reset))))))
  have hshift : Built _ := .binop .ASR .w8 ⟨.w8, 0⟩ ⟨.w8, 1⟩ hconsts rfl rfl rfl
  have hwrites : Built _ := .write_context .w8 ⟨.w8, 7⟩ 0 (.write_context .w8 ⟨.w8, 6⟩ 0
    (.write_context .w8 ⟨.w8, 5⟩ 0 (.write_context .w8 ⟨.w8, 4⟩ 0 (.write_context .w8 ⟨.w8, 3⟩ 0
      (.write_context .w8 ⟨.w8, 2⟩ 0 hshift rfl) rfl) rfl) rfl) rfl) rfl
  refine .exit ⟨.w64, 8⟩ none (.mov_const .w64 0 hwrites) rfl ?_ rfl
  rintro r ⟨⟩

/-- The registers of a program before it is lowered. -/
def irInstruction.access (insn : irInstruction) : LinearScan.access Nat :=
  ⟨insn.reads.map irRegister.index, insn.dst.toList.map irRegister.index⟩

/-- A byte that is stored at an address of 16 bits. The builders do not ask for the width of
    an address. -/
def narrow_address : jitter :=
  let (j, byte) := Jitter.add_mov_const .w8 0x80 resetJitter
  let (j, address) := add_cast .c8S_TO_16 byte j
  let j := (add_store .w8 byte address j).getD j
  let (j, pc) := Jitter.add_mov_const .w64 0 j
  (add_exit_cond pc none j).getD j

theorem built_narrow_address : Built narrow_address := by
  have hstore : Built _ := .store .w8 ⟨.w8, 0⟩ ⟨.w16, 1⟩
    (.cast .c8S_TO_16 ⟨.w8, 0⟩ (.mov_const .w8 0x80 .reset) rfl) rfl rfl rfl
  refine .exit ⟨.w64, 2⟩ none (.mov_const .w64 0 hstore) rfl ?_ rfl
  rintro r ⟨⟩

theorem insns_narrow_address : (allocateInstructions narrow_address).insns =
    [.mov_const 0 0x80, .cast .c8S_TO_16 1 0, .store .w8 0 1, .mov_const 2 0, .exit 2 none true] := rfl

/-- The operands of the shifts to the right, the comparisons and the casts, and the
    predicates. -/
def x86Instruction.compared : x86Instruction → List Nat
  | .binop _ .SHR _ op1 op2 | .binop _ .ASR _ op1 op2 | .binop _ .ROR _ op1 op2
  | .binop _ .CMPEQ _ op1 op2 | .binop _ .CMPNE _ op1 op2 => [op1, op2]
  | .ite _ pred _ _ => [pred]
  | .cast _ _ op => [op]
  | .exit _ pred _ => pred.toList
  | _ => []

/-- These operands hold no more than their values. -/
def Compiled.Compared {j : jitter} {p : program} (x : Compiled j p) (h : helpers) (r : clobber)
    (c₀ : cpu) : Prop :=
  ∀ k c xi, x.At (host h r) c₀ k c → (allocateInstructions j).insns[k]? = some xi →
    ∀ v ∈ xi.compared, Words.Clean (virtual_width j v) (view c (x.place v))

/-- There is code, and it does what the program means when these operands hold no more than
    their values. -/
def Agrees (j : jitter) : Prop :=
  ∃ code, jit j no_hole = some code ∧ ∃ x : Compiled j ⟨0, code⟩,
    ∀ (h : helpers) (r : clobber) (c₀ : cpu) (env₀ : Nat → BitVec 64) (value : BitVec 64)
      (s : ir_state), Entry c₀ → x.Compared h r c₀ →
      ir_run h (c₀.regs rdi) j.insns ⟨env₀, c₀.mem, c₀.calls.map (seen_call h)⟩ = some (value, s) →
      Returns ⟨0, code⟩ h r c₀ value s

theorem compared_narrow_address {p : program} (x : Compiled narrow_address p) :
    x.Compared no_helpers no_clobber blank := by
  intro k c xi hat hinsn v hv
  rw [insns_narrow_address] at hinsn
  match k, hinsn with
  | 0, hinsn | 2, hinsn | 3, hinsn | 4, hinsn =>
    obtain rfl := Option.some.inj hinsn
    cases hv
  | 1, hinsn =>
    obtain rfl := Option.some.inj hinsn
    obtain rfl := List.mem_singleton.mp hv
    have hmove : (allocateInstructions narrow_address).insns[0]? = some (.mov_const 0 0x80) := rfl
    rw [x.first_const entry_blank hmove hat]
    decide

/-- The host stores the byte at the 64 bits of the register. -/
theorem narrow_address_host {p : program} (x : Compiled narrow_address p) {value : BitVec 64}
    {s : ir_state} (h : Returns p no_helpers no_clobber blank value s) : s.mem.load 0xff80 1 = 0 := by
  have hmove : (allocateInstructions narrow_address).insns[0]? = some (.mov_const 0 0x80) := rfl
  have hcast : (allocateInstructions narrow_address).insns[1]? = some (.cast .c8S_TO_16 1 0) := rfl
  have hstore : (allocateInstructions narrow_address).insns[2]? = some (.store .w8 0 1) := rfl
  have hpc : (allocateInstructions narrow_address).insns[3]? = some (.mov_const 2 0) := rfl
  have hexit : (allocateInstructions narrow_address).insns[4]? = some (.exit 2 none true) := rfl
  have hat₀ : x.At (host no_helpers no_clobber) blank 0 blank := ⟨by decide, .refl, rfl⟩
  obtain ⟨c₁, hat₁, hexec₁⟩ := x.next hat₀ hmove id
  obtain ⟨c₂, hat₂, hexec₂⟩ := x.next hat₁ hcast id
  obtain ⟨c₃, hat₃, hexec₃⟩ := x.next hat₂ hstore id
  obtain ⟨c₄, hat₄, hexec₄⟩ := x.next hat₃ hpc id
  obtain ⟨b, d, hreach, hdone, -, hmem, -⟩ := x.exits entry_blank hat₄ hexit (by
    rintro q ⟨⟩)
  obtain ⟨b', d', hreach', hdone', -, hmem', -⟩ := h
  obtain rfl := done_unique hreach hreach' hdone hdone'
  have haddress : view c₂ (x.place 1) = 0xffffffffffffff80 := by
    rw [hexec₂.result rfl, x86Instruction.value, x.first_const entry_blank hmove hat₁]
    decide
  have hmem₁ : c₁.mem = blank.mem := hexec₁.mem
  have hmem₂ : c₂.mem = c₁.mem := hexec₂.mem
  have hmem₄ : c₄.mem = c₃.mem := hexec₄.mem
  rw [← hmem', hmem, hmem₄, hexec₃.mem, x86Instruction.memory, haddress,
    Mem.load_store_apart (.inl (by decide)), hmem₂, hmem₁]
  decide

theorem not_agrees_narrow_address : ¬ Agrees narrow_address := by
  rintro ⟨code, -, x, hall⟩
  obtain ⟨s, hrun, hmem⟩ : ∃ s, ir_run no_helpers (blank.regs rdi) narrow_address.insns
      ⟨fun _ => 0, blank.mem, blank.calls.map (seen_call no_helpers)⟩ = some (0, s) ∧
      s.mem.load 0xff80 1 = 0x80 := ⟨_, rfl, by decide⟩
  have hreturns := hall _ _ _ _ _ _ entry_blank (compared_narrow_address x) hrun
  rw [narrow_address_host x hreturns] at hmem
  cases hmem

/-- Markers have no code, a lowered program can need more registers than the program had or than
    are live in it at any point, and an address is looked at as a whole. -/
theorem not_every_program_agrees :
    (Built marked ∧ ¬ Agrees marked) ∧
    (Built crowded ∧ ¬ Agrees crowded ∧ LinearScan.Fits REG_NUMBER crowded.lastReadIndex 0 []
      (crowded.insns.map irInstruction.access)) ∧
    (NotAllocated added_last ∧ ¬ Agrees added_last) ∧
    (Built narrow_address ∧ FitsHost narrow_address ∧ ¬ Agrees narrow_address) := by
  have hmarked : jit marked no_hole = none := rfl
  have hcrowded : jit crowded no_hole = none := rfl
  have hadded : jit added_last no_hole = none := rfl
  refine ⟨⟨built_marked, ?_⟩, ⟨built_crowded, ?_, by decide⟩,
    ⟨notAllocated_of_built built_added_last (by decide) rfl, ?_⟩, built_narrow_address, by decide,
    not_agrees_narrow_address⟩
  · rintro ⟨code, hjit, -⟩
    rw [hmarked] at hjit
    cases hjit
  · rintro ⟨code, hjit, -⟩
    rw [hcrowded] at hjit
    cases hjit
  · rintro ⟨code, hjit, -⟩
    rw [hadded] at hjit
    cases hjit

end Umeq.Jitter.X86_64
