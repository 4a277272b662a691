import Umeq.Jitter.X8664.Emit
import Umeq.Jitter.Meaning
import Umeq.Lib.X86.Machine
import Mathlib.Tactic.FinCases

/-! # What the generated code does on the host

    One lemma for each `gen_*`: the instructions that its bytes stand for, and the
    effect of running them on the eight allocated registers and on the memory. The
    registers that code generation uses for itself (`rax`, `rcx`, `rdx`, `rsi`) and
    the flag are left open.
-/

namespace Umeq.Jitter.X86_64

open Bytes Words X86

/-- The host register of an index. -/
def hi (i : Fin 8) : Reg := ⟨8 + i, by omega⟩

/-- One of the first eight host registers. -/
def lo (i : Fin 8) : Reg := ⟨i, by omega⟩

/-! ## Instructions of the generated code -/

section encodings

variable (d s : Fin 8)

theorem hi_bits : (hi d).val / 8 = 1 ∧ (hi d).val % 8 = d.val := by
  simp only [hi]
  omega

theorem lo_bits : (lo d).val / 8 = 0 ∧ (lo d).val % 8 = d.val := by
  simp only [lo]
  omega

/-- The prefixes that code generation writes. -/
theorem rex_byte (w : Bool) :
    rex w (hi d) (hi s) = byte (REX_OPCODE ||| REX_R ||| REX_B ||| if w then REX_W else 0) ∧
    rex w (lo d) (hi s) = byte (REX_OPCODE ||| REX_B ||| if w then REX_W else 0) ∧
    rex w (hi d) (lo s) = byte (REX_OPCODE ||| REX_R ||| if w then REX_W else 0) := by
  simp only [rex, hi_bits, lo_bits]
  cases w <;> exact ⟨rfl, rfl, rfl⟩

theorem rex_zero_byte (w : Bool) :
    rex w 0 (hi s) = byte (REX_OPCODE ||| REX_B ||| if w then REX_W else 0) := (rex_byte 0 s w).2.1

theorem or_fields : ∀ d s : Fin 8,
    MODRM_MODE_3 ||| d.val <<< MODRM_REG_SHIFT ||| s.val = 64 * 3 + 8 * d + s ∧
    MODRM_MODE_2 ||| d.val <<< MODRM_REG_SHIFT ||| s.val = 64 * 2 + 8 * d + s ∧
    0 <<< SIB_SCALE_SHIFT ||| 4 <<< SIB_INDEX_SHIFT ||| s.val = 64 * 0 + 8 * 4 + s := by
  decide

/-- The register bytes that code generation writes. -/
theorem modrm_byte {n m : Nat} (hn : n < 8) (hm : m < 8) :
    byte (MODRM_MODE_3 ||| n <<< MODRM_REG_SHIFT ||| m) = modrm 3 n m ∧
    byte (MODRM_MODE_2 ||| n <<< MODRM_REG_SHIFT ||| m) = modrm 2 n m ∧
    byte (0 <<< SIB_SCALE_SHIFT ||| 4 <<< SIB_INDEX_SHIFT ||| m) = modrm 0 4 m := by
  obtain ⟨h3, h2, h0⟩ := or_fields ⟨n, hn⟩ ⟨m, hm⟩
  simp only at h3 h2 h0
  rw [h3, h2, h0]
  simp only [modrm, Nat.mod_eq_of_lt hn, Nat.mod_eq_of_lt hm]
  exact ⟨rfl, rfl, rfl⟩

theorem modrm_hi_reg (mod n : Nat) : modrm mod (hi d) n = modrm mod d n := by
  simp only [modrm, hi_bits, Nat.mod_eq_of_lt d.isLt]

theorem modrm_hi_rm (mod n : Nat) : modrm mod n (hi d) = modrm mod n d := by
  simp only [modrm, hi_bits, Nat.mod_eq_of_lt d.isLt]

theorem move_reg_asm : gen_move_reg d s = encode (.mov (hi d) (hi s)) := by
  simp only [gen_move_reg, modrm_byte d.isLt s.isLt, encode, rex_byte, modrm_hi_reg, modrm_hi_rm,
    if_true]

theorem move_reg_low_asm : gen_move_reg_low d s = encode (.mov (lo d) (hi s)) := by
  simp only [gen_move_reg_low, modrm_byte d.isLt s.isLt, encode, rex_byte, modrm_hi_rm, if_true]
  rfl

theorem move_reg_from_low_asm : gen_move_reg_from_low s d = encode (.mov (hi d) (lo s)) := by
  simp only [gen_move_reg_from_low, modrm_byte d.isLt s.isLt, encode, rex_byte, modrm_hi_reg,
    if_true]
  rfl

theorem cmp_zero_asm : gen_cmp_zero d = encode (.cmp_imm (hi d) 0) := by
  simp only [gen_cmp_zero, (modrm_byte (show 7 < 8 by decide) d.isLt).1, encode, rex_zero_byte,
    modrm_hi_rm, if_true]
  rfl

theorem sib_asm : gen_sib d s = address (hi d) (hi s) 0 := by
  have hnot : ¬ ((hi s).val < 8 ∧ hi s ≠ 4) := by
    simp only [hi]
    omega
  simp only [gen_sib, (modrm_byte d.isLt (show 4 < 8 by decide)).2.1,
    (modrm_byte d.isLt s.isLt).2.2, address, if_neg hnot, modrm_hi_reg, modrm_hi_rm]
  rfl

theorem context_asm (offset : BitVec 32) : gen_context d offset = address (hi d) rdi offset := by
  have hlow : rdi.val < 8 ∧ rdi ≠ 4 := by decide
  simp only [gen_context, (modrm_byte d.isLt (show 7 < 8 by decide)).2.1, address, if_pos hlow,
    modrm_hi_reg]
  rfl

theorem size_asm (w : width) (opcode8 opcode : UInt8) : gen_size w (REX_R ||| REX_B) opcode8 opcode =
    prefixes w (hi d) (hi s) ++ [if w = .w8 then opcode8 else opcode] := by
  simp only [prefixes, rex_byte]
  cases w <;> rfl

theorem size_context_asm (w : width) (opcode8 opcode : UInt8) :
    gen_size w REX_R opcode8 opcode =
      prefixes w (hi d) rdi ++ [if w = .w8 then opcode8 else opcode] := by
  have hrex : ∀ b, rex b (hi d) rdi = byte (REX_OPCODE ||| REX_R ||| if b then REX_W else 0) :=
    fun b => (rex_byte d 7 b).2.2
  simp only [prefixes, hrex]
  cases w <;> rfl

theorem load_asm (w : width) : gen_load w d s = encode (.load w (hi d) (hi s) 0) := by
  rw [gen_load, size_asm d s, sib_asm]
  rfl

theorem store_asm (w : width) : gen_store w d s = encode (.store w (hi d) (hi s) 0) := by
  rw [gen_store, size_asm d s, sib_asm]
  rfl

theorem read_asm (w : width) (offset : BitVec 32) :
    gen_read w d offset = encode (.load w (hi d) rdi offset) := by
  rw [gen_read, size_context_asm d, context_asm]
  rfl

theorem write_asm (w : width) (offset : BitVec 32) :
    gen_write w d offset = encode (.store w (hi d) rdi offset) := by
  rw [gen_write, size_context_asm d, context_asm]
  rfl

theorem mov_const_asm (v : BitVec 64) : gen_mov_const_hlp d v =
    encode (if v = 0 then .xor32 (hi d) (hi d) else .mov_imm (hi d) v) := by
  unfold gen_mov_const_hlp
  by_cases hv : v = 0
  · have hor : 0xc0 ||| d.val <<< 3 ||| d.val = MODRM_MODE_3 ||| d.val <<< MODRM_REG_SHIFT ||| d.val :=
      rfl
    rw [if_neg (by simpa using hv), if_pos hv, hor, (modrm_byte d.isLt d.isLt).1]
    simp only [encode, rex_byte, modrm_hi_reg, modrm_hi_rm]
    rfl
  · rw [if_pos hv, if_neg hv]
    simp only [encode, rex_zero_byte, hi_bits]
    rfl

theorem alu_asm (op : alu) : [byte (REX_OPCODE ||| REX_R ||| REX_B ||| REX_W), op.opcode,
    byte (MODRM_MODE_3 ||| s.val <<< MODRM_REG_SHIFT ||| d.val)] = encode (.alu op (hi d) (hi s)) := by
  simp only [modrm_byte s.isLt d.isLt, encode, rex_byte, modrm_hi_reg, modrm_hi_rm, if_true]

theorem shift_asm (op : shift) : [byte (REX_OPCODE ||| REX_B ||| REX_W), 0xd3,
    byte (MODRM_MODE_3 ||| op.subcode <<< MODRM_REG_SHIFT ||| d.val)] =
      encode (.shift_cl .w64 op (hi d)) := by
  simp only [modrm_byte (shift_subcode op).1 d.isLt, encode, prefixes, rex_zero_byte, modrm_hi_rm]
  rfl

theorem ror_asm (w : width) : (if w = .w16 then [(0x66 : UInt8)] else []) ++
    [byte (REX_OPCODE ||| REX_B ||| if w = .w64 then REX_W else 0), if w = .w8 then 0xd2 else 0xd3,
      byte (MODRM_MODE_3 ||| 1 <<< MODRM_REG_SHIFT ||| d.val)] =
      encode (.shift_cl w .ror (hi d)) := by
  simp only [(modrm_byte (show 1 < 8 by decide) d.isLt).1, encode, prefixes, rex_zero_byte,
    modrm_hi_rm]
  cases w <;> rfl

theorem mask_asm (w : width) : gen_mask w d =
    codes (if w = .w64 then [] else [.mov_imm rcx (mask w), .alu .and (hi d) rcx]) := by
  have hrex : rex true rcx (hi d) = byte (REX_OPCODE ||| REX_B ||| REX_W) := (rex_byte 1 d true).2.1
  unfold gen_mask
  split_ifs
  · rfl
  · simp only [(modrm_byte (show 1 < 8 by decide) d.isLt).1, codes, List.flatMap_cons,
      List.flatMap_nil, encode, hrex, modrm_hi_rm]
    rfl

theorem cmp_asm : [byte (REX_OPCODE ||| REX_R ||| REX_B ||| REX_W), 0x3b,
    byte (MODRM_MODE_3 ||| d.val <<< MODRM_REG_SHIFT ||| s.val)] = encode (.cmp (hi d) (hi s)) := by
  simp only [modrm_byte d.isLt s.isLt, encode, rex_byte, modrm_hi_reg, modrm_hi_rm, if_true]

theorem cmov_asm : [byte (REX_OPCODE ||| REX_R ||| REX_B ||| REX_W), 0x0f, 0x45,
    byte (MODRM_MODE_3 ||| d.val <<< MODRM_REG_SHIFT ||| s.val)] =
    encode (.cmovnz (hi d) (hi s)) := by
  simp only [modrm_byte d.isLt s.isLt, encode, rex_byte, modrm_hi_reg, modrm_hi_rm, if_true]

theorem shift_imm_asm (n : Nat) (hn : n < 256) : [byte (REX_OPCODE ||| REX_B ||| REX_W), 0xc1,
    byte (MODRM_MODE_3 ||| 4 <<< MODRM_REG_SHIFT ||| d.val), byte n,
    byte (REX_OPCODE ||| REX_B ||| REX_W), 0xc1,
    byte (MODRM_MODE_3 ||| 7 <<< MODRM_REG_SHIFT ||| d.val), byte n] =
    codes [.shift_imm .shl (hi d) (BitVec.ofNat 8 n), .shift_imm .sar (hi d) (BitVec.ofNat 8 n)] := by
  have hbyte : UInt8.ofNat (BitVec.ofNat 8 n).toNat = byte n := by
    rw [BitVec.toNat_ofNat, Nat.mod_eq_of_lt hn]
    rfl
  simp only [(modrm_byte (show 4 < 8 by decide) d.isLt).1, (modrm_byte (show 7 < 8 by decide) d.isLt).1,
    codes, List.flatMap_cons, List.flatMap_nil, encode, rex_zero_byte, modrm_hi_rm, hbyte,
    shift.subcode, if_true]
  rfl

theorem push_asm : saved.flatMap gen_push_hlp =
    codes [.push rdi, .push (hi 0), .push (hi 1), .push (hi 2), .push (hi 3), .push (hi 4)] := by
  decide

theorem pop_asm : saved.reverse.flatMap gen_pop_hlp =
    codes [.pop (hi 4), .pop (hi 3), .pop (hi 2), .pop (hi 1), .pop (hi 0), .pop rdi] := by
  decide

theorem call_asm : [byte (REX_OPCODE ||| REX_W), 0xff,
    byte (MODRM_MODE_3 ||| 2 <<< MODRM_REG_SHIFT ||| 0)] = encode (.call rax) := by
  decide

theorem lea_asm : gen_lea_rdx = encode (.lea_rip rdx 0) := by
  decide

theorem clear_rdx_asm : [byte REX_OPCODE, 0x31, byte (0xc0 ||| 2 <<< 3 ||| 2)] =
    encode (.xor32 rdx rdx) := by
  decide

end encodings

/-! ## Effects -/

/-- The allocated registers. -/
def view (c : cpu) : Fin 8 → BitVec 64 := fun i => c.regs (hi i)

/-- From `c` to `c'` the allocated registers become `regs` and the memory `mem`; the
    context pointer, the stack and the calls made stay. -/
structure Effect (c c' : cpu) (regs : Fin 8 → BitVec 64) (mem : Mem) : Prop where
  view : view c' = regs
  rdi : c'.regs rdi = c.regs rdi
  mem : c'.mem = mem
  stack : c'.stack = c.stack
  calls : c'.calls = c.calls

section effects

variable {p : program} {e : externals} {c c' c'' : cpu} {d s t : Fin 8}

theorem hi_ne : ∀ i : Fin 8, hi i ≠ rax ∧ hi i ≠ rcx ∧ hi i ≠ rdx ∧ hi i ≠ rsi ∧ hi i ≠ rdi := by
  decide

theorem hi_inj : hi d = hi s ↔ d = s := by
  simp [hi, Fin.ext_iff]

@[simp] theorem view_set_hi (c : cpu) (d : Fin 8) (v : BitVec 64) :
    view (c.set (hi d) v) = Function.update (view c) d v := by
  funext i
  simp only [view, cpu.set, Function.update_apply, hi_inj]

theorem view_set_other {r : Reg} (hr : ∀ i, hi i ≠ r) (v : BitVec 64) :
    view (c.set r v) = view c := by
  funext i
  simp only [view, cpu.set, Function.update_apply, if_neg (hr i)]

theorem regs_set_hi (r : Reg) (hr : ∀ i, hi i ≠ r) (v : BitVec 64) :
    (c.set (hi d) v).regs r = c.regs r := by
  simp only [cpu.set, Function.update_apply, if_neg (hr d).symm]

theorem Effect.trans {regs regs' : Fin 8 → BitVec 64} {m m' : Mem} (h : Effect c c' regs m)
    (h' : Effect c' c'' regs' m') : Effect c c'' regs' m' :=
  ⟨h'.view, h'.rdi.trans h.rdi, h'.mem, h'.stack.trans h.stack, h'.calls.trans h.calls⟩

/-- A write of an allocated register. -/
theorem effect_set (v : BitVec 64) (zf : Bool) :
    Effect c { c.set (hi d) v with zf := zf } (Function.update (view c) d v) c.mem :=
  ⟨view_set_hi c d v, regs_set_hi rdi (fun i => (hi_ne i).2.2.2.2) v, rfl, rfl, rfl⟩

/-- A write of a register that code generation keeps for itself. -/
theorem effect_scratch {r : Reg} (hr : r ≠ rdi) (hi_r : ∀ i, hi i ≠ r) (v : BitVec 64) :
    Effect c (c.set r v) (view c) c.mem := by
  refine ⟨view_set_other hi_r v, ?_, rfl, rfl, rfl⟩
  simp only [cpu.set, Function.update_apply, if_neg hr.symm]

theorem passes_mov_const (d : Fin 8) (v : BitVec 64) :
    ∃ c', Passes p e (gen_mov_const_hlp d v) c c' ∧
      Effect c c' (Function.update (view c) d v) c.mem := by
  rw [mov_const_asm]
  split_ifs with hv
  · have hzero : low .w32 (c.regs (hi d) ^^^ c.regs (hi d)) = v := by
      rw [BitVec.xor_self, hv]
      rfl
    refine ⟨{ c.set (hi d) v with zf := v = 0 }, passes_asm ?_, effect_set v _⟩
    simp only [asm.apply, hzero]
  · exact ⟨c.set (hi d) v, passes_asm rfl, effect_set v c.zf⟩

theorem passes_move_reg (d s : Fin 8) : ∃ c', Passes p e (gen_move_reg d s) c c' ∧
    Effect c c' (Function.update (view c) d (view c s)) c.mem := by
  rw [move_reg_asm]
  exact ⟨_, passes_asm rfl, effect_set _ c.zf⟩

/-- A copy to one of the registers that code generation keeps for itself. -/
theorem passes_move_reg_low {l : Fin 8} (hl : lo l ≠ rdi) (s : Fin 8) :
    Passes p e (gen_move_reg_low l s) c (c.set (lo l) (view c s)) ∧
      Effect c (c.set (lo l) (view c s)) (view c) c.mem := by
  have hne : ∀ i, hi i ≠ lo l := by
    intro i h
    have := congrArg Fin.val h
    simp only [hi, lo] at this
    omega
  rw [move_reg_low_asm]
  exact ⟨passes_asm rfl, effect_scratch hl hne _⟩

theorem effective_zero (r : Reg) : c.effective r 0 = (c.regs r).toNat := by
  simp [cpu.effective]

theorem passes_load (w : width) (d s : Fin 8) : ∃ c', Passes p e (gen_load w d s) c c' ∧
    Effect c c' (Function.update (view c) d (merge w (view c d)
      (BitVec.ofNat 64 (c.mem.load (view c s).toNat w.bytes)))) c.mem := by
  rw [load_asm]
  refine ⟨_, passes_asm rfl, ?_⟩
  simp only [effective_zero]
  exact effect_set _ c.zf

theorem passes_store (w : width) (s t : Fin 8) : ∃ c', Passes p e (gen_store w s t) c c' ∧
    Effect c c' (view c) (c.mem.store (view c t).toNat w.bytes (view c s).toNat) := by
  rw [store_asm]
  refine ⟨_, passes_asm rfl, rfl, rfl, ?_, rfl, rfl⟩
  simp only [effective_zero]
  rfl

theorem passes_read (w : width) (d : Fin 8) (offset : BitVec 32) :
    ∃ c', Passes p e (gen_read w d offset) c c' ∧
      Effect c c' (Function.update (view c) d (merge w (view c d) (BitVec.ofNat 64
        (c.mem.load (context_address (c.regs rdi) offset) w.bytes)))) c.mem := by
  rw [read_asm]
  exact ⟨_, passes_asm rfl, effect_set _ c.zf⟩

theorem passes_write (w : width) (s : Fin 8) (offset : BitVec 32) :
    ∃ c', Passes p e (gen_write w s offset) c c' ∧ Effect c c' (view c)
      (c.mem.store (context_address (c.regs rdi) offset) w.bytes (view c s).toNat) := by
  rw [write_asm]
  exact ⟨_, passes_asm rfl, rfl, rfl, rfl, rfl, rfl⟩

/-! ### Operations -/

/-- What the host computes before the result is masked. -/
def host_binop (type : irBinopType) (w : width) (x y : BitVec 64) : BitVec 64 :=
  match type with
  | .ADD => x + y
  | .SUB => x - y
  | .XOR => x ^^^ y
  | .AND => x &&& y
  | .OR => x ||| y
  | .SHL => x <<< (y.toNat % 64)
  | .SHR => x >>> (y.toNat % 64)
  | .ASR => x.sshiftRight (y.toNat % 64)
  | .ROR => merge w x (shift.ror.eval w x (shift_count w (y.toNat % 256)))
  | .CMPEQ => truth (x = y)
  | .CMPNE => truth (x ≠ y)

theorem passes_mask (w : width) (d : Fin 8) : ∃ c', Passes p e (gen_mask w d) c c' ∧
    Effect c c' (Function.update (view c) d (low w (view c d))) c.mem := by
  rw [mask_asm]
  split_ifs with hw
  · subst hw
    refine ⟨c, passes_codes rfl, ?_, rfl, rfl, rfl, rfl⟩
    rw [low_w64, Function.update_eq_self]
  · have hscratch : Effect c (c.set rcx (mask w)) (view c) c.mem :=
      effect_scratch (by decide) (fun i => (hi_ne i).2.1) _
    have hval : (c.set rcx (mask w)).regs (hi d) &&& (c.set rcx (mask w)).regs rcx =
        low w (view c d) := by
      have h₁ := congrFun hscratch.view d
      simp only [view] at h₁
      rw [h₁, ← and_mask]
      rfl
    have hset := effect_set (c := c.set rcx (mask w)) (d := d) (low w (view c d))
      (low w (view c d) = 0)
    rw [hscratch.view] at hset
    refine ⟨_, passes_codes ?_, hscratch.trans hset⟩
    simp only [List.foldlM_cons, List.foldlM_nil, asm.apply, alu.eval, Option.bind_eq_bind,
      Option.bind_some, hval]
    rfl

theorem passes_alu (op : alu) (hdt : d ≠ t) : ∃ c', Passes p e (gen_alu op.opcode d s t) c c' ∧
    Effect c c' (Function.update (view c) d (op.eval (view c s) (view c t))) c.mem := by
  obtain ⟨c₁, h₁, he₁⟩ := passes_move_reg (p := p) (e := e) (c := c) d s
  rw [gen_alu, alu_asm]
  have hd : c₁.regs (hi d) = view c s := by
    have := congrFun he₁.view d
    simpa [view] using this
  have ht : c₁.regs (hi t) = view c t := by
    have := congrFun he₁.view t
    rwa [Function.update_of_ne hdt.symm] at this
  refine ⟨_, h₁.append (passes_asm rfl), ?_⟩
  have hset := effect_set (c := c₁) (d := d) (op.eval (view c s) (view c t))
    (op.eval (view c s) (view c t) = 0)
  rw [he₁.view, Function.update_idem, he₁.mem] at hset
  simp only [hd, ht]
  exact he₁.trans hset

/-- A shift by the low byte of a register. -/
theorem passes_shift_cl (w : width) (op : shift) (d s t : Fin 8) :
    ∃ c', Passes p e (gen_move_reg_low 1 t ++ gen_move_reg d s ++ encode (.shift_cl w op (hi d)))
        c c' ∧
      Effect c c' (Function.update (view c) d (merge w (view c s)
        (op.eval w (view c s) (shift_count w ((view c t).toNat % 256))))) c.mem := by
  obtain ⟨hmove, hscratch⟩ := passes_move_reg_low (p := p) (e := e) (c := c) (l := 1) (by decide) t
  have hsrc : (c.set (lo 1) (view c t)).regs (hi s) = view c s := congrFun hscratch.view s
  have hcopy : Passes p e (gen_move_reg d s) (c.set (lo 1) (view c t))
      ((c.set (lo 1) (view c t)).set (hi d) (view c s)) := by
    rw [move_reg_asm, ← hsrc]
    exact passes_asm rfl
  have hcl : ((c.set (lo 1) (view c t)).set (hi d) (view c s)).regs rcx = view c t := by
    rw [regs_set_hi rcx (fun i => (hi_ne i).2.1)]
    rfl
  have hdst : ((c.set (lo 1) (view c t)).set (hi d) (view c s)).regs (hi d) = view c s := by
    simp [cpu.set]
  have hset := effect_set (c := c.set (lo 1) (view c t)) (d := d) (view c s) c.zf
  refine ⟨_, (hmove.append hcopy).append (passes_asm rfl), ?_⟩
  refine (hscratch.trans hset).trans ?_
  have hshift := effect_set (c := (c.set (lo 1) (view c t)).set (hi d) (view c s)) (d := d)
    (merge w (view c s) (op.eval w (view c s) (shift_count w ((view c t).toNat % 256))))
    (if op = .ror ∨ shift_count w ((view c t).toNat % 256) = 0 then c.zf
      else low w (merge w (view c s)
        (op.eval w (view c s) (shift_count w ((view c t).toNat % 256)))) = 0)
  rw [view_set_hi, hscratch.view, Function.update_idem] at hshift
  unfold cpu.shift
  simp only [hcl, hdst]
  exact hshift

theorem shift_count_w64 (n : Nat) : shift_count .w64 (n % 256) = n % 64 := by
  simp only [shift_count, if_true]
  omega

theorem shift_eval_w64 (op : shift) (x : BitVec 64) (n : Nat) : op.eval .w64 x n =
    match op with
    | .ror => x.rotateRight n
    | .shl => x <<< n
    | .shr => x >>> n
    | .sar => x.sshiftRight n := by
  have hx : x.setWidth width.w64.bits = x := BitVec.setWidth_eq x
  unfold shift.eval
  rw [hx]
  cases op <;> exact BitVec.setWidth_eq _

theorem passes_unop (op : shift) (d s t : Fin 8) :
    ∃ c', Passes p e (gen_unop op.subcode d s t) c c' ∧ Effect c c' (Function.update (view c) d
      (op.eval .w64 (view c s) ((view c t).toNat % 64))) c.mem := by
  obtain ⟨c', hpass, heff⟩ := passes_shift_cl (p := p) (e := e) (c := c) .w64 op d s t
  rw [merge_w64, shift_count_w64] at heff
  refine ⟨c', ?_, heff⟩
  rw [gen_unop, shift_asm]
  exact hpass

/-- The two values of a comparison. -/
theorem passes_cmp (isEq : Bool) (hds : d ≠ s) (hdt : d ≠ t) :
    ∃ c', Passes p e (gen_cmp isEq d s t) c c' ∧ Effect c c' (Function.update (view c) d
      (truth (decide (view c s = view c t) = isEq))) c.mem := by
  obtain ⟨c₁, h₁, he₁⟩ := passes_mov_const (p := p) (e := e) (c := c) d (BitVec.allOnes 64)
  have hs : c₁.regs (hi s) = view c s := by
    have := congrFun he₁.view s
    rwa [Function.update_of_ne hds.symm] at this
  have ht : c₁.regs (hi t) = view c t := by
    have := congrFun he₁.view t
    rwa [Function.update_of_ne hdt.symm] at this
  have hfalse : gen_mov_const_hlp d 0 = encode (.xor32 (hi d) (hi d)) := mov_const_asm d 0
  have hjump : [(if isEq then 0x74 else 0x75 : UInt8), byte (gen_mov_const_hlp d 0).length] =
      encode (.jcc (!isEq) 3) := by
    rw [hfalse]
    cases isEq <;> rfl
  have hcmp : Passes p e (encode (.cmp (hi t) (hi s))) c₁
      { c₁ with zf := decide (view c s = view c t) } := by
    refine passes_asm ?_
    simp only [asm.apply, hs, ht, eq_comm (a := view c t)]
  unfold gen_cmp
  simp only [cmp_asm, hjump, List.append_assoc]
  by_cases heq : decide (view c s = view c t) = isEq
  · -- the jump goes over the move of the false value
    refine ⟨{ c₁ with zf := decide (view c s = view c t) },
      h₁.append (hcmp.append (passes_jcc_over ?_ ?_)), ?_⟩
    · show decide (view c s = view c t) ≠ !isEq
      rw [heq]
      simp
    · rw [hfalse]
      rfl
    · have : truth (decide (decide (view c s = view c t) = isEq)) = BitVec.allOnes 64 := by
        simp [truth, heq]
      rw [this]
      exact ⟨he₁.view, he₁.rdi, he₁.mem, he₁.stack, he₁.calls⟩
  · obtain ⟨c₂, h₂, he₂⟩ := passes_mov_const (p := p) (e := e)
      (c := { c₁ with zf := decide (view c s = view c t) }) d 0
    refine ⟨c₂, h₁.append (hcmp.append ((passes_jcc ?_).append h₂)), ?_⟩
    · show decide (view c s = view c t) = !isEq
      cases isEq <;> simpa using heq
    · have : truth (decide (decide (view c s = view c t) = isEq)) = 0 := by
        simp [truth, heq]
      rw [this]
      have hview : view { c₁ with zf := decide (view c s = view c t) } = view c₁ := rfl
      rw [hview, he₁.view, Function.update_idem] at he₂
      have hmem := he₂.mem
      exact ⟨he₂.view, he₂.rdi.trans he₁.rdi, hmem.trans he₁.mem, he₂.stack.trans he₁.stack,
        he₂.calls.trans he₁.calls⟩

theorem passes_op (type : irBinopType) (w : width) (hds : d ≠ s) (hdt : d ≠ t) :
    ∃ c', Passes p e (gen_binop w type d s t) c c' ∧ Effect c c' (Function.update (view c) d
      (low w (host_binop type w (view c s) (view c t)))) c.mem := by
  -- the operation, and then the mask
  suffices hop : ∀ op_code, gen_binop w type d s t = op_code ++ gen_mask w d →
      (∃ c', Passes p e op_code c c' ∧ Effect c c' (Function.update (view c) d
        (host_binop type w (view c s) (view c t))) c.mem) →
      ∃ c', Passes p e (gen_binop w type d s t) c c' ∧ Effect c c' (Function.update (view c) d
        (low w (host_binop type w (view c s) (view c t)))) c.mem by
    cases type with
    | ADD => exact hop _ rfl (passes_alu .add hdt)
    | SUB => exact hop _ rfl (passes_alu .sub hdt)
    | XOR => exact hop _ rfl (passes_alu .xor hdt)
    | AND => exact hop _ rfl (passes_alu .and hdt)
    | OR => exact hop _ rfl (passes_alu .or hdt)
    | SHL =>
      refine hop _ rfl ?_
      have := passes_unop (p := p) (e := e) (c := c) .shl d s t
      rwa [shift_eval_w64] at this
    | SHR =>
      refine hop _ rfl ?_
      have := passes_unop (p := p) (e := e) (c := c) .shr d s t
      rwa [shift_eval_w64] at this
    | ASR =>
      refine hop _ rfl ?_
      have := passes_unop (p := p) (e := e) (c := c) .sar d s t
      rwa [shift_eval_w64] at this
    | ROR =>
      refine hop _ rfl ?_
      have := passes_shift_cl (p := p) (e := e) (c := c) w .ror d s t
      rw [gen_ror, List.append_assoc, ror_asm]
      exact this
    | CMPEQ =>
      refine hop _ rfl ?_
      have := passes_cmp (p := p) (e := e) (c := c) true hds hdt
      simpa [host_binop] using this
    | CMPNE =>
      refine hop _ rfl ?_
      have := passes_cmp (p := p) (e := e) (c := c) false hds hdt
      simpa [host_binop] using this
  rintro op_code hcode ⟨c₁, h₁, he₁⟩
  obtain ⟨c₂, h₂, he₂⟩ := passes_mask (p := p) (e := e) (c := c₁) w d
  rw [he₁.view, Function.update_idem, Function.update_self, he₁.mem] at he₂
  rw [hcode]
  exact ⟨c₂, h₁.append h₂, he₁.trans he₂⟩

theorem passes_ite {q : Fin 8} (hdq : d ≠ q) (hdt : d ≠ t) :
    ∃ c', Passes p e (gen_ite d q t s) c c' ∧ Effect c c' (Function.update (view c) d
      (if view c q ≠ 0 then view c t else view c s)) c.mem := by
  obtain ⟨c₁, h₁, he₁⟩ := passes_move_reg (p := p) (e := e) (c := c) d s
  have hq : c₁.regs (hi q) = view c q := by
    have := congrFun he₁.view q
    rwa [Function.update_of_ne hdq.symm] at this
  have ht : c₁.regs (hi t) = view c t := by
    have := congrFun he₁.view t
    rwa [Function.update_of_ne hdt.symm] at this
  have hcmp : Passes p e (gen_cmp_zero q) c₁ { c₁ with zf := decide (view c q = 0) } := by
    rw [cmp_zero_asm]
    refine passes_asm ?_
    simp [asm.apply, hq]
  rw [gen_ite, cmov_asm]
  by_cases hz : view c q = 0
  · refine ⟨_, (h₁.append hcmp).append (passes_asm rfl), ?_⟩
    simp only [hz, decide_true, if_true, ne_eq, not_true_eq_false, if_false]
    exact ⟨he₁.view, he₁.rdi, he₁.mem, he₁.stack, he₁.calls⟩
  · refine ⟨_, (h₁.append hcmp).append (passes_asm rfl), ?_⟩
    have hset := effect_set (c := c₁) (d := d) (view c t) false
    rw [he₁.view, Function.update_idem, he₁.mem] at hset
    simp only [hz, decide_false, Bool.false_eq_true, if_false, ne_eq, not_false_eq_true, if_true,
      ht]
    exact he₁.trans hset

/-- What the host computes for a cast. -/
def host_cast (type : irCastType) (x : BitVec 64) : BitVec 64 :=
  if type.signed then (x <<< sign_shift type.source).sshiftRight (sign_shift type.source)
  else if type.source.bits ≤ type.target.bits then low type.source x else low type.target x

theorem passes_unsigned_cast (w : width) (hds : d ≠ s) :
    ∃ c', Passes p e (gen_upper_unsigned_cast_hlp d s (mask w)) c c' ∧
      Effect c c' (Function.update (view c) d (low w (view c s))) c.mem := by
  obtain ⟨c₁, h₁, he₁⟩ := passes_mov_const (p := p) (e := e) (c := c) d (mask w)
  have hd : c₁.regs (hi d) = mask w := by
    have := congrFun he₁.view d
    rwa [Function.update_self] at this
  have hs : c₁.regs (hi s) = view c s := by
    have := congrFun he₁.view s
    rwa [Function.update_of_ne hds.symm] at this
  have hasm : gen_upper_unsigned_cast_hlp d s (mask w) =
      gen_mov_const_hlp d (mask w) ++ encode (.alu .and (hi d) (hi s)) :=
    congrArg (gen_mov_const_hlp d (mask w) ++ ·) (alu_asm d s .and)
  rw [hasm]
  refine ⟨_, h₁.append (passes_asm rfl), ?_⟩
  have hset := effect_set (c := c₁) (d := d) (low w (view c s)) (low w (view c s) = 0)
  rw [he₁.view, Function.update_idem, he₁.mem] at hset
  simp only [alu.eval, hd, hs, BitVec.and_comm (mask w), and_mask]
  exact he₁.trans hset

theorem passes_shift_imm (op : shift) {n : Nat} (hn : n < 64) (d : Fin 8) :
    ∃ c', Passes p e (encode (.shift_imm op (hi d) (BitVec.ofNat 8 n))) c c' ∧
      Effect c c' (Function.update (view c) d (op.eval .w64 (view c d) n)) c.mem := by
  have hcount : shift_count .w64 (BitVec.ofNat 8 n).toNat = n := by
    simp only [shift_count, if_true, BitVec.toNat_ofNat]
    omega
  refine ⟨_, passes_asm rfl, ?_⟩
  unfold cpu.shift
  simp only [hcount, merge_w64]
  exact effect_set _ _

theorem passes_signed_cast {n : Nat} (hn : n < 64) (d s : Fin 8) :
    ∃ c', Passes p e (gen_upper_signed_cast_hlp d s n) c c' ∧
      Effect c c' (Function.update (view c) d (((view c s) <<< n).sshiftRight n)) c.mem := by
  obtain ⟨c₁, h₁, he₁⟩ := passes_move_reg (p := p) (e := e) (c := c) d s
  obtain ⟨c₂, h₂, he₂⟩ := passes_shift_imm (p := p) (e := e) (c := c₁) .shl hn d
  obtain ⟨c₃, h₃, he₃⟩ := passes_shift_imm (p := p) (e := e) (c := c₂) .sar hn d
  rw [he₁.view, Function.update_self, Function.update_idem, he₁.mem, shift_eval_w64] at he₂
  rw [he₂.view, Function.update_self, Function.update_idem, he₂.mem, shift_eval_w64] at he₃
  have hasm : gen_upper_signed_cast_hlp d s n = gen_move_reg d s ++
      (encode (.shift_imm .shl (hi d) (BitVec.ofNat 8 n)) ++
        encode (.shift_imm .sar (hi d) (BitVec.ofNat 8 n))) := by
    rw [gen_upper_signed_cast_hlp, shift_imm_asm d n (by omega)]
    rfl
  rw [hasm]
  exact ⟨c₃, h₁.append (h₂.append h₃), (he₁.trans he₂).trans he₃⟩

theorem passes_cast (type : irCastType) (hds : d ≠ s) : ∃ c', Passes p e (gen_cast type d s) c c' ∧
    Effect c c' (Function.update (view c) d (host_cast type (view c s))) c.mem := by
  cases type with
  | c8S_TO_16 | c8S_TO_32 | c8S_TO_64 | c16S_TO_32 | c16S_TO_64 | c32S_TO_64 =>
    exact passes_signed_cast (by decide) d s
  | c8U_TO_16 | c8U_TO_32 | c8U_TO_64 | c64_TO_8 | c32_TO_8 | c16_TO_8 =>
    exact passes_unsigned_cast .w8 hds
  | c16U_TO_32 | c16U_TO_64 | c64_TO_16 | c32_TO_16 => exact passes_unsigned_cast .w16 hds
  | c32U_TO_64 | c64_TO_32 => exact passes_unsigned_cast .w32 hds

/-! ### Exits -/

/-- The bytes of an exit that can be patched but for its hole. -/
theorem length_exit_sequence (v : Nat) (is_patchable : Bool) {hole : List UInt8}
    (hhole : hole.length = 8) : (gen_exit_sequence v is_patchable hole).length < 128 := by
  cases is_patchable <;>
    simp [gen_exit_sequence, gen_move_reg_low, gen_lea_rdx, hhole]

/-- What an exit gives back. -/
def Exits (c : cpu) (value : BitVec 64) (c' : cpu) : Prop :=
  c'.regs rax = value ∧ c'.mem = c.mem ∧ c'.calls = c.calls

theorem leaves_exit_sequence (s : Fin 8) (is_patchable : Bool) (hole : List UInt8)
    (hstack : c.stack = []) :
    Leaves p e (gen_exit_sequence s is_patchable hole) c (Exits c (view c s)) := by
  obtain ⟨hmove, -⟩ := passes_move_reg_low (p := p) (e := e) (c := c) (l := 0) (by decide) s
  have hval : ∀ v, ((c.set (lo 0) (view c s)).set rdx v).regs rax = view c s := by
    intro v
    simp [cpu.set, rax, rdx, lo]
  cases is_patchable with
  | false =>
    have hclear : Passes p e (encode (.xor32 rdx rdx)) (c.set (lo 0) (view c s))
        { (c.set (lo 0) (view c s)).set rdx 0 with zf := true } := by
      refine passes_asm ?_
      simp only [asm.apply, BitVec.xor_self]
      rfl
    have hasm : gen_exit_sequence s false hole =
        gen_move_reg_low 0 s ++ (encode (.xor32 rdx rdx) ++ (encode .ret ++ [])) := by
      rw [← clear_rdx_asm]
      rfl
    rw [hasm]
    exact hmove.leaves (hclear.leaves (leaves_ret [] hstack fun n => ⟨hval 0, rfl, rfl⟩))
  | true =>
    have hasm : gen_exit_sequence s true hole = gen_move_reg_low 0 s ++
        (encode (.lea_rip rdx 0) ++
          (encode .ret ++ ([0x48, 0xb8] ++ hole ++ [0xff, 0xe0] ++ gen_lea_rdx))) := by
      rw [← lea_asm]
      simp [gen_exit_sequence, encode]
    rw [hasm]
    exact hmove.leaves (leaves_lea fun v =>
      leaves_ret _ hstack fun n => ⟨hval v, rfl, rfl⟩)

/-- The jump over an exit. -/
theorem jump_asm (n : Nat) : [(0x74 : UInt8), byte n] = encode (.jcc false (BitVec.ofNat 8 n)) := by
  have hbyte : byte n = UInt8.ofNat (BitVec.ofNat 8 n).toNat := by
    apply UInt8.toNat_inj.mp
    rw [byte, UInt8.toNat_ofNat', UInt8.toNat_ofNat', BitVec.toNat_ofNat]
    omega
  rw [hbyte]
  rfl

/-- An exit without predicate, or whose predicate is not zero. -/
theorem leaves_exit (s : Fin 8) (pred : Option (Fin 8)) (is_patchable : Bool) (hole : List UInt8)
    (hstack : c.stack = []) (hpred : ∀ q, pred = some q → view c q ≠ 0) :
    Leaves p e (gen_exit s (pred.map Fin.val) is_patchable hole) c (Exits c (view c s)) := by
  cases pred with
  | none => exact leaves_exit_sequence s is_patchable hole hstack
  | some q =>
    have hcmp : Passes p e (gen_cmp_zero q) c { c with zf := false } := by
      rw [cmp_zero_asm]
      refine passes_asm ?_
      have hne : ¬ c.regs (hi q) = 0#64 := hpred q rfl
      simp [asm.apply, hne]
    have hleave := leaves_exit_sequence (p := p) (e := e) (c := { c with zf := false }) s
      is_patchable hole hstack
    simp only [Option.map_some, gen_exit, jump_asm, List.append_assoc]
    exact hcmp.leaves ((passes_jcc rfl).leaves hleave)

/-- An exit whose predicate is zero. -/
theorem passes_exit (s q : Fin 8) (is_patchable : Bool) {hole : List UInt8}
    (hhole : hole.length = 8) (hpred : view c q = 0) :
    ∃ c', Passes p e (gen_exit s (some q.val) is_patchable hole) c c' ∧
      Effect c c' (view c) c.mem := by
  have hlen := length_exit_sequence s is_patchable hhole
  have hcmp : Passes p e (gen_cmp_zero q) c { c with zf := true } := by
    rw [cmp_zero_asm]
    refine passes_asm ?_
    have hz : c.regs (hi q) = 0#64 := hpred
    simp [asm.apply, hz]
  refine ⟨{ c with zf := true }, ?_, rfl, rfl, rfl, rfl, rfl⟩
  simp only [gen_exit, jump_asm, List.append_assoc]
  refine hcmp.append (passes_jcc_over (by simp) ?_)
  rw [BitVec.toInt_ofNat', Int.bmod]
  omega

/-! ### Calls -/

/-- The registers that a C function gives back as it found them. -/
def callee_saved (r : Reg) : Bool := r ∈ ([3, 4, 5, 12, 13, 14, 15] : List Reg)

/-- The registers of the parameters that follow the context. -/
def args_of (regs : Reg → BitVec 64) : Fin 4 → BitVec 64 :=
  ![regs rsi, regs rdx, regs rcx, regs (hi 0)]

/-- What a C function leaves in the other registers and in the flag. -/
structure clobber where
  regs : BitVec 64 → (Reg → BitVec 64) → Mem → Reg → BitVec 64
  flag : BitVec 64 → (Reg → BitVec 64) → Mem → Bool

/-- The helpers as host functions. -/
def host (h : helpers) (k : clobber) : externals where
  run := fun address regs mem =>
    let (mem', result) := h.run address (regs rdi) (h.seen address (args_of regs)) mem
    (fun r => if r = rax then result else if callee_saved r then regs r
      else k.regs address regs mem r, mem', k.flag address regs mem)

/-- A register that is loaded when there is a value for it. -/
def cpu.load_param (c : cpu) (r : Reg) : Option (BitVec 64) → cpu
  | some v => c.set r v
  | none => c

theorem passes_nil : Passes p e [] c c := passes_codes (show [].foldlM (asm.apply e) c = some c from rfl)

theorem passes_param_low {l : Fin 8} (hl : lo l ≠ rdi) (param : Option (Fin 8))
    {regs : Fin 8 → BitVec 64} (hregs : view c = regs) :
    Passes p e (gen_param (gen_move_reg_low l) (param.map Fin.val)) c
        (cpu.load_param c (lo l) (param.map regs)) ∧
      view (cpu.load_param c (lo l) (param.map regs)) = regs := by
  subst hregs
  cases param with
  | none => exact ⟨passes_nil, rfl⟩
  | some s =>
    obtain ⟨hpass, heffect⟩ := passes_move_reg_low (p := p) (e := e) (c := c) hl s
    exact ⟨hpass, heffect.view⟩

theorem passes_param (d : Fin 8) (param : Option (Fin 8)) {regs : Fin 8 → BitVec 64}
    (hregs : view c = regs) : Passes p e (gen_param (gen_move_reg d) (param.map Fin.val)) c
      (cpu.load_param c (hi d) (param.map regs)) := by
  subst hregs
  cases param with
  | none => exact passes_nil
  | some s =>
    show Passes p e (gen_move_reg d s) c _
    rw [move_reg_asm]
    exact passes_asm rfl

/-- The registers that a call saves. -/
def saved_values (c : cpu) : List (BitVec 64) :=
  [view c 4, view c 3, view c 2, view c 1, view c 0, c.regs rdi]

/-- The state at the call instruction. -/
def at_call (c : cpu) (a : Fin 8) (param : Fin 4 → Option (Fin 8)) : cpu :=
  let v := fun i => (param i).map (view c)
  let c₁ := { c with stack := saved_values c ++ c.stack }
  let c₂ := c₁.set rax (view c a)
  let c₃ := cpu.load_param c₂ rcx (v 2)
  let c₄ := cpu.load_param c₃ rdx (v 1)
  let c₅ := cpu.load_param c₄ rsi (v 0)
  cpu.load_param c₅ (hi 0) (v 3)

theorem passes_to_call (a : Fin 8) (param : Fin 4 → Option (Fin 8)) :
    Passes p e (saved.flatMap gen_push_hlp ++ gen_move_reg_low 0 a ++
        gen_param (gen_move_reg_low 1) ((param 2).map Fin.val) ++
        gen_param (gen_move_reg_low 2) ((param 1).map Fin.val) ++
        gen_param (gen_move_reg_low 6) ((param 0).map Fin.val) ++
        gen_param (gen_move_reg 0) ((param 3).map Fin.val)) c (at_call c a param) := by
  have h₁ : Passes p e (saved.flatMap gen_push_hlp) c { c with stack := saved_values c ++ c.stack } := by
    rw [push_asm]
    exact passes_codes rfl
  obtain ⟨h₂, hregs₂⟩ := passes_param_low (p := p) (e := e) (l := 0)
    (c := { c with stack := saved_values c ++ c.stack }) (by decide) (some a) rfl
  -- the parameters are loaded from registers that the loads before them left
  obtain ⟨h₃, hregs₃⟩ := passes_param_low (p := p) (e := e) (l := 1) (by decide) (param 2) hregs₂
  obtain ⟨h₄, hregs₄⟩ := passes_param_low (p := p) (e := e) (l := 2) (by decide) (param 1) hregs₃
  obtain ⟨h₅, hregs₅⟩ := passes_param_low (p := p) (e := e) (l := 6) (by decide) (param 0) hregs₄
  have h₆ := passes_param (p := p) (e := e) 0 (param 3) hregs₅
  exact ((((h₁.append h₂).append h₃).append h₄).append h₅).append h₆

/-- A load of a parameter changes one register only. -/
theorem load_param_regs {r r' : Reg} (hne : r' ≠ r) (v : Option (BitVec 64)) :
    (cpu.load_param c r v).regs r' = c.regs r' := by
  cases v with
  | none => rfl
  | some v => simp [cpu.load_param, cpu.set, Function.update_of_ne hne]

theorem load_param_rest (r : Reg) (v : Option (BitVec 64)) :
    (cpu.load_param c r v).mem = c.mem ∧ (cpu.load_param c r v).stack = c.stack ∧
      (cpu.load_param c r v).calls = c.calls := by
  cases v <;> exact ⟨rfl, rfl, rfl⟩

theorem load_param_self (r : Reg) (v : BitVec 64) : (cpu.load_param c r (some v)).regs r = v := by
  simp [cpu.load_param, cpu.set]

theorem at_call_rest (a : Fin 8) (param : Fin 4 → Option (Fin 8)) :
    (at_call c a param).mem = c.mem ∧ (at_call c a param).stack = saved_values c ++ c.stack ∧
      (at_call c a param).calls = c.calls := by
  simp only [at_call, load_param_rest, cpu.set]
  exact ⟨trivial, trivial, trivial⟩

theorem at_call_regs (a : Fin 8) (param : Fin 4 → Option (Fin 8)) :
    (at_call c a param).regs rax = view c a ∧ (at_call c a param).regs rdi = c.regs rdi ∧
      ∀ i, i ≠ 0 → (at_call c a param).regs (hi i) = view c i := by
  refine ⟨?_, ?_, ?_⟩
  · simp (disch := decide) only [at_call, load_param_regs]
    simp [cpu.set]
  · simp (disch := decide) only [at_call, load_param_regs]
    simp [cpu.set, rdi, rax]
  · intro i hi0
    have h0 : hi i ≠ hi 0 := fun h => hi0 (hi_inj.mp h)
    obtain ⟨hrax, hrcx, hrdx, hrsi, -⟩ := hi_ne i
    simp only [at_call]
    rw [load_param_regs h0, load_param_regs hrsi, load_param_regs hrdx, load_param_regs hrcx]
    simp [cpu.set, Function.update_of_ne hrax, view]

/-- The parameters are in the registers that a C function takes them from. -/
theorem at_call_args (a : Fin 8) (param : Fin 4 → Option (Fin 8)) {i : Fin 4} {s : Fin 8}
    (hs : param i = some s) : args_of (at_call c a param).regs i = view c s := by
  match i, hs with
  | 0, hs =>
    show (at_call c a param).regs rsi = _
    simp (disch := decide) only [at_call, load_param_regs, hs]
    exact load_param_self _ _
  | 1, hs =>
    show (at_call c a param).regs rdx = _
    simp (disch := decide) only [at_call, load_param_regs, hs]
    exact load_param_self _ _
  | 2, hs =>
    show (at_call c a param).regs rcx = _
    simp (disch := decide) only [at_call, load_param_regs, hs]
    exact load_param_self _ _
  | 3, hs =>
    show (at_call c a param).regs (hi 0) = _
    simp only [at_call, hs]
    exact load_param_self _ _

/-- The registers that a call saves get their values back. -/
theorem passes_pops {vs : List (BitVec 64)} {regs : Fin 8 → BitVec 64} {context : BitVec 64}
    (hstack : c.stack = [regs 4, regs 3, regs 2, regs 1, regs 0, context] ++ vs)
    (hregs : ∀ i, 4 < i → view c i = regs i) :
    ∃ c', Passes p e (saved.reverse.flatMap gen_pop_hlp) c c' ∧ view c' = regs ∧
      c'.regs rdi = context ∧ c'.regs rax = c.regs rax ∧ c'.mem = c.mem ∧ c'.stack = vs ∧
      c'.calls = c.calls := by
  rw [pop_asm]
  refine ⟨{ (((((c.set (hi 4) (regs 4)).set (hi 3) (regs 3)).set (hi 2) (regs 2)).set (hi 1)
    (regs 1)).set (hi 0) (regs 0)).set rdi context with stack := vs }, passes_codes ?_, ?_⟩
  · simp only [List.foldlM_cons, List.foldlM_nil, asm.apply, hstack, List.cons_append,
      List.nil_append, Option.bind_eq_bind, Option.bind_some]
    rfl
  · refine ⟨?_, ?_, ?_, rfl, rfl, rfl⟩
    · funext i
      fin_cases i
      · rfl
      · rfl
      · rfl
      · rfl
      · rfl
      · exact hregs 5 (by decide)
      · exact hregs 6 (by decide)
      · exact hregs 7 (by decide)
    · simp [cpu.set]
    · rfl

/-- The registers after a result has been stored. -/
def with_result (regs : Fin 8 → BitVec 64) (result : Option (Fin 8)) (v : BitVec 64) :
    Fin 8 → BitVec 64 :=
  match result with
  | some d => Function.update regs d v
  | none => regs

/-- What the function called does to the memory, and its result. -/
def called (h : helpers) (c : cpu) (a : Fin 8) (param : Fin 4 → Option (Fin 8)) : Mem × BitVec 64 :=
  h.run (view c a) (c.regs rdi) (h.seen (view c a) (args_of (at_call c a param).regs)) c.mem

theorem passes_call (h : helpers) (k : clobber) (a : Fin 8) (param : Fin 4 → Option (Fin 8))
    (result : Option (Fin 8)) : ∃ c', Passes p (host h k)
        (gen_call a (fun i => (param i).map Fin.val) (result.map Fin.val)) c c' ∧
      c'.mem = (called h c a param).1 ∧
      view c' = with_result (view c) result (called h c a param).2 ∧
      c'.regs rdi = c.regs rdi ∧ c'.stack = c.stack ∧
      c'.calls = c.calls ++ [(view c a, (at_call c a param).regs)] := by
  obtain ⟨hmem, hstack, hcalls⟩ := at_call_rest (c := c) a param
  obtain ⟨hrax, hrdi, hkept⟩ := at_call_regs (c := c) a param
  have hto := passes_to_call (p := p) (e := host h k) (c := c) a param
  unfold called
  generalize at_call c a param = c₁ at hmem hstack hcalls hrax hrdi hkept hto ⊢
  -- the function gives its result and keeps the registers that are not saved
  obtain ⟨c₂, hcall, hrax₂, hmem₂, hkept₂, hstack₂, hcalls₂⟩ :
      ∃ c₂, Passes p (host h k) (encode (.call rax)) c₁ c₂ ∧
        c₂.regs rax = (h.run (view c a) (c.regs rdi) (h.seen (view c a) (args_of c₁.regs)) c.mem).2 ∧
        c₂.mem = (h.run (view c a) (c.regs rdi) (h.seen (view c a) (args_of c₁.regs)) c.mem).1 ∧
        (∀ r, r ≠ rax → callee_saved r → c₂.regs r = c₁.regs r) ∧ c₂.stack = c₁.stack ∧
        c₂.calls = c₁.calls ++ [(view c a, c₁.regs)] := by
    refine ⟨_, passes_asm rfl, ?_, ?_, ?_, rfl, ?_⟩
    · simp only [host, hrax, hrdi, hmem, if_true]
    · simp only [host, hrax, hrdi, hmem]
    · intro r hr hsaved
      simp only [host, if_neg hr, if_pos hsaved]
    · simp only [hrax]
  have hregs : ∀ i : Fin 8, 4 < i → view c₂ i = view c i := by
    intro i hi4
    have hsaved : callee_saved (hi i) := by
      revert hi4
      revert i
      decide
    exact (hkept₂ _ (hi_ne i).1 hsaved).trans (hkept i (by omega))
  obtain ⟨c₃, hpop, hview₃, hrdi₃, hrax₃, hmem₃, hstack₃, hcalls₃⟩ :=
    passes_pops (p := p) (e := host h k) (hstack₂.trans hstack) hregs
  have hto₃ := (hto.append hcall).append hpop
  rw [← call_asm] at hto₃
  cases result with
  | none =>
    refine ⟨c₃, hto₃.append passes_nil, hmem₃.trans hmem₂, hview₃, hrdi₃, hstack₃, ?_⟩
    rw [hcalls₃, hcalls₂, hcalls]
  | some d =>
    have hmove : Passes p (host h k) (gen_move_reg_from_low 0 d) c₃ (c₃.set (hi d) (c₃.regs rax)) := by
      rw [show (0 : Nat) = (0 : Fin 8).val from rfl, move_reg_from_low_asm d 0]
      exact passes_asm rfl
    refine ⟨_, hto₃.append hmove, hmem₃.trans hmem₂, ?_, ?_, hstack₃, ?_⟩
    · rw [view_set_hi, hview₃, hrax₃, hrax₂]
      rfl
    · rw [regs_set_hi rdi fun i => (hi_ne i).2.2.2.2, hrdi₃]
    · exact hcalls₃.trans (by rw [hcalls₂, hcalls])

end effects

end Umeq.Jitter.X86_64
