import Umeq.Jitter.Built

/-! # Code of a disassembler, one guest instruction after the other

    The disassemblers keep no register of the representation from one guest instruction to the
    next, and they do not look at the numbers of those that they get. What they emit for a
    guest instruction is then known up to where its registers are numbered from: a `fragment`,
    with registers from 0 on.

    * `jitter.emit` adds a fragment as the calls of the builders do (`Built.emit`).
    * `emit_insns`, `emit_types`, `Reads.emit`: what is there afterwards.
-/

namespace Umeq.Jitter

open Words

/-! ## Renumbered instructions -/

def irRegister.shift (base : Nat) (r : irRegister) : irRegister := ⟨r.type, base + r.index⟩

def irInstruction.shift (base : Nat) : irInstruction → irInstruction
  | .mov w dst value => .mov w (dst.shift base) value
  | .load w dst address => .load w (dst.shift base) (address.shift base)
  | .store w src address => .store w (src.shift base) (address.shift base)
  | .binop type w dst op1 op2 => .binop type w (dst.shift base) (op1.shift base) (op2.shift base)
  | .call address param result =>
    .call (address.shift base) (fun n => (param n).map (irRegister.shift base))
      (result.map (irRegister.shift base))
  | .ite w dst pred trueOp falseOp =>
    .ite w (dst.shift base) (pred.shift base) (trueOp.shift base) (falseOp.shift base)
  | .cast type dst op => .cast type (dst.shift base) (op.shift base)
  | .exit value pred => .exit (value.shift base) (pred.map (irRegister.shift base))
  | .read_context w dst offset => .read_context w (dst.shift base) offset
  | .write_context w src offset => .write_context w (src.shift base) offset
  | .marker value => .marker value

/-- What is emitted for a guest instruction. -/
structure fragment where
  insns : List irInstruction
  ssa : Ssa [] insns
  plain : ∀ v, .marker v ∉ insns

/-- One call of a builder, when the registers of the fragment are numbered from `base` on. -/
def jitter.emit_insn (base : Nat) (j : jitter) (insn : irInstruction) : jitter :=
  jitter.add { j with types := j.types ++ (insn.dst.map irRegister.type).toList } (insn.shift base)

def jitter.emit (j : jitter) (f : fragment) : jitter := f.insns.foldl (jitter.emit_insn j.types.length) j

section shift

variable (base : Nat) (insn : irInstruction)

@[simp] theorem type_shift (r : irRegister) : (r.shift base).type = r.type := rfl

@[simp] theorem index_shift (r : irRegister) : (r.shift base).index = base + r.index := rfl

theorem reduceOption_map_params (param : Fin 4 → Option irRegister) :
    (List.ofFn fun n => (param n).map (irRegister.shift base)).reduceOption =
      (List.ofFn param).reduceOption.map (irRegister.shift base) := by
  rw [← List.reduceOption_map, List.map_ofFn]
  rfl

@[simp] theorem reads_shift : (insn.shift base).reads = insn.reads.map (irRegister.shift base) := by
  cases insn with
  | call address param result =>
    simp only [irInstruction.shift, irInstruction.reads, List.map_cons, reduceOption_map_params]
  | exit value pred =>
    cases pred with
    | none => rfl
    | some r => rfl
  | _ => rfl

@[simp] theorem dst_shift : (insn.shift base).dst = insn.dst.map (irRegister.shift base) := by
  cases insn with
  | _ => rfl

theorem typed_shift : (insn.shift base).typed ↔ insn.typed := by
  cases insn with
  | _ => exact Iff.rfl

theorem shift_ne_marker {insn : irInstruction} (h : ∀ v, insn ≠ .marker v) (v : BitVec 32) :
    insn.shift base ≠ .marker v := by
  cases insn with
  | marker value => exact absurd rfl (h value)
  | _ => exact irInstruction.noConfusion

end shift

/-! ## Emitting is calling the builders -/

/-- An instruction whose operands are there and whose types are those asked for is what one of
    the builders adds. -/
theorem Built.add {j : jitter} {insn : irInstruction} (h : Built j) (htyped : insn.typed)
    (hreads : ∀ r ∈ insn.reads, j.has r) (hdst : ∀ d, insn.dst = some d → d.index = j.types.length) :
    Built (jitter.add { j with types := j.types ++ (insn.dst.map irRegister.type).toList } insn) := by
  have hnone : { j with types := j.types ++ [] } = j := by rw [List.append_nil]
  cases insn with
  | mov w dst value =>
    obtain ⟨type, index⟩ := dst
    obtain rfl : index = _ := hdst _ rfl
    obtain rfl : type = w := htyped
    exact h.mov_const type value
  | load w dst address =>
    obtain ⟨type, index⟩ := dst
    obtain rfl : index = _ := hdst _ rfl
    obtain rfl : type = w := htyped
    exact h.load type address (hreads address List.mem_cons_self)
  | store w src address =>
    refine h.store w src address (hreads src (by simp [irInstruction.reads]))
      (hreads address (by simp [irInstruction.reads])) ?_
    rw [add_store, if_pos (show src.type = w from htyped)]
    exact congrArg (fun k => some (jitter.add k (.store w src address))) hnone.symm
  | binop type w dst op1 op2 =>
    obtain ⟨hd, hop1, hop2⟩ : dst.type = w ∧ op1.type = w ∧ op2.type = type.op2_type w := htyped
    obtain ⟨dtype, index⟩ := dst
    obtain rfl : index = _ := hdst _ rfl
    obtain rfl : dtype = w := hd
    have hadd : add_binop type dtype op1 op2 j =
        some (j.add_dst dtype fun dst => .binop type dtype dst op1 op2) := by
      rw [add_binop, if_pos ⟨hop1, hop2⟩, hop1]
    exact h.binop type dtype op1 op2 (hreads op1 (by simp [irInstruction.reads]))
      (hreads op2 (by simp [irInstruction.reads])) hadd
  | call address param result =>
    have haddress := hreads address List.mem_cons_self
    have hparam : ∀ n r, param n = some r → j.has r := fun n r hn =>
      hreads r (List.mem_cons_of_mem _ (mem_params.mpr ⟨n, hn⟩))
    cases result with
    | none =>
      have hcall := h.call_void address param haddress hparam
      rw [← hnone] at hcall
      exact hcall
    | some r =>
      obtain ⟨type, index⟩ := r
      obtain rfl : index = _ := hdst _ rfl
      exact h.call type address param haddress hparam
  | ite w dst pred trueOp falseOp =>
    obtain ⟨hd, htrue, hfalse⟩ :
      dst.type = trueOp.type ∧ trueOp.type = pred.type ∧ falseOp.type = pred.type := htyped
    obtain ⟨dtype, index⟩ := dst
    obtain rfl : index = _ := hdst _ rfl
    obtain rfl : dtype = _ := hd
    have hadd : add_ite w pred trueOp falseOp j =
        some (j.add_dst trueOp.type fun dst => .ite w dst pred trueOp falseOp) := by
      rw [add_ite, if_pos ⟨htrue.symm, hfalse.symm⟩]
    exact h.ite w pred trueOp falseOp (hreads pred (by simp [irInstruction.reads]))
      (hreads trueOp (by simp [irInstruction.reads]))
      (hreads falseOp (by simp [irInstruction.reads])) hadd
  | cast type dst op =>
    obtain ⟨dtype, index⟩ := dst
    obtain rfl : index = _ := hdst _ rfl
    obtain rfl : dtype = type.target := htyped
    exact h.cast type op (hreads op List.mem_cons_self)
  | exit value pred =>
    refine h.exit value pred (hreads value List.mem_cons_self) ?_ ?_
    · intro r hr
      exact hreads r (List.mem_cons_of_mem _ (Option.mem_toList.mpr hr))
    · rw [add_exit_cond, if_pos (show value.type = .w64 from htyped)]
      exact congrArg (fun k => some (jitter.add k (.exit value pred))) hnone.symm
  | read_context w dst offset =>
    obtain ⟨type, index⟩ := dst
    obtain rfl : index = _ := hdst _ rfl
    obtain rfl : type = w := htyped
    exact h.read_context type offset
  | write_context w src offset =>
    have hwrite := h.write_context w src offset (hreads src List.mem_cons_self)
    rw [← hnone] at hwrite
    exact hwrite
  | marker value =>
    have hmarker := h.insn_marker value
    rw [← hnone] at hmarker
    exact hmarker

section emit

variable {base : Nat} {env : List irRegister} {insns : List irInstruction} {j : jitter}

/-- The calls for the instructions of a fragment, `env` being the registers it has so far. -/
theorem Built.foldl_emit (h : Built j) (hssa : Ssa env insns)
    (henv : ∀ n (r : irRegister), env[n]? = some r → r.index = n)
    (hlen : j.types.length = base + env.length) (hhas : ∀ r ∈ env, j.has (r.shift base)) :
    Built (insns.foldl (jitter.emit_insn base) j) := by
  induction insns generalizing env j with
  | nil => exact h
  | cons insn insns ih =>
    obtain ⟨htyped, hreads, hdst, hrest⟩ := hssa
    have hindex : ∀ d, (insn.shift base).dst = some d → d.index = j.types.length := by
      intro d hd
      rw [dst_shift] at hd
      obtain ⟨d', hd', rfl⟩ := Option.map_eq_some_iff.mp hd
      rw [index_shift, hdst d' hd', hlen]
    have htypes : (insn.shift base).dst.map irRegister.type = insn.dst.map irRegister.type := by
      rw [dst_shift, Option.map_map]
      rfl
    have hadd : Built (j.emit_insn base insn) := by
      have hbuilt := h.add ((typed_shift base insn).mpr htyped)
        (by simpa using fun r hr => hhas r (hreads r hr)) hindex
      rw [htypes] at hbuilt
      exact hbuilt
    have hold : ∀ r, j.has r → (j.emit_insn base insn).has r := fun r hr =>
      (List.getElem?_append_left (List.getElem?_eq_some_iff.mp hr).1).trans hr
    apply ih hadd hrest
    · intro n r hr
      rw [List.getElem?_append] at hr
      split_ifs at hr with hn
      · exact henv n r hr
      · cases hd : insn.dst with
        | none => simp [hd] at hr
        | some d =>
          rw [hd, Option.toList_some, List.getElem?_singleton] at hr
          split_ifs at hr with hz
          obtain rfl := Option.some.inj hr
          rw [hdst d hd]
          omega
    · cases hd : insn.dst <;> simp [jitter.emit_insn, jitter.add, hd, hlen, Nat.add_assoc]
    · intro r hr
      obtain hr | hr := List.mem_append.mp hr
      · exact hold _ (hhas r hr)
      · have hd := Option.mem_toList.mp hr
        have hlast : r.index + base = j.types.length := by
          rw [hdst r hd, hlen, Nat.add_comm]
        simp [jitter.has, jitter.emit_insn, jitter.add, hd, ← hlast, Nat.add_comm]

theorem Built.emit (h : Built j) (f : fragment) : Built (j.emit f) := by
  refine h.foldl_emit f.ssa ?_ rfl ?_
  · rintro n r ⟨⟩
  · rintro r ⟨⟩

end emit

/-! ## What is there after a fragment -/

/-- A register of an instruction. -/
def irRegisters (insn : irInstruction) (r : Nat) : Prop :=
  (∃ q ∈ insn.reads, q.index = r) ∨ ∃ d, insn.dst = some d ∧ d.index = r

/-- The register is known as not read only if there is no instruction that reads it. -/
def Reads (j : jitter) : Prop :=
  ∀ r, j.lastReadIndex r = none ↔ ∀ insn ∈ j.insns, r ∉ insn.reads.map irRegister.index

section after

variable {j : jitter} {base : Nat}

theorem irRegisters_read {insn : irInstruction} {q : irRegister} (hq : q ∈ insn.reads) :
    irRegisters insn q.index := .inl ⟨q, hq, rfl⟩

theorem irRegisters_dst {insn : irInstruction} {d : irRegister} (hd : insn.dst = some d) :
    irRegisters insn d.index := .inr ⟨d, hd, rfl⟩

theorem foldl_emit_insns (insns : List irInstruction) :
    (insns.foldl (jitter.emit_insn base) j).insns = j.insns ++ insns.map (irInstruction.shift base) := by
  induction insns generalizing j with
  | nil => simp
  | cons insn insns ih =>
    rw [List.foldl_cons, ih, List.map_cons]
    simp [jitter.emit_insn, jitter.add]

theorem emit_insns (f : fragment) :
    (j.emit f).insns = j.insns ++ f.insns.map (irInstruction.shift j.types.length) :=
  foldl_emit_insns f.insns

theorem emit_types (f : fragment) :
    (j.emit f).types = j.types ++ (results f.insns).map irRegister.type := by
  have hfold : ∀ (base : Nat) (insns : List irInstruction) (j : jitter),
      (insns.foldl (jitter.emit_insn base) j).types = j.types ++ (results insns).map irRegister.type := by
    intro base insns
    induction insns with
    | nil => simp [results]
    | cons insn insns ih =>
      intro j
      rw [List.foldl_cons, ih, results_cons]
      cases hd : insn.dst <;> simp [jitter.emit_insn, jitter.add, hd]
  exact hfold _ f.insns j

theorem reads_reset : Reads resetJitter := by
  intro r
  simp [resetJitter]

theorem Reads.add (h : Reads j) (insn : irInstruction) (types : List width) :
    Reads (jitter.add { j with types } insn) := by
  intro r
  simp only [jitter.add, List.forall_mem_append, List.forall_mem_singleton, ← h r]
  split_ifs with hr
  · simp [hr]
  · simp [hr]

theorem Reads.emit (h : Reads j) (f : fragment) : Reads (j.emit f) := by
  have hfold : ∀ (base : Nat) (insns : List irInstruction) (j : jitter), Reads j →
      Reads (insns.foldl (jitter.emit_insn base) j) := by
    intro base insns
    induction insns with
    | nil => exact fun j hj => hj
    | cons insn insns ih => exact fun j hj => ih _ (hj.add _ _)
  exact hfold _ f.insns j h

/-- The registers of a program are those before it and its results. -/
theorem Ssa.registers {env : List irRegister} {insns : List irInstruction} (h : Ssa env insns)
    (henv : ∀ r ∈ env, r.index < env.length) :
    ∀ insn ∈ insns, ∀ r, irRegisters insn r → r < env.length + (results insns).length := by
  induction insns generalizing env with
  | nil =>
    intro insn hmem
    cases hmem
  | cons first insns ih =>
    obtain ⟨-, hreads, hdst, hrest⟩ := h
    rw [results_cons, List.length_append]
    have hlen : (env ++ first.dst.toList).length = env.length + first.dst.toList.length :=
      List.length_append
    intro insn hmem r hr
    obtain rfl | hmem := List.mem_cons.mp hmem
    · obtain ⟨q, hq, rfl⟩ | ⟨d, hd, rfl⟩ := hr
      · have := henv q (hreads q hq)
        omega
      · have := hdst d hd
        have hone : insn.dst.toList.length = 1 := by rw [hd, Option.toList_some, List.length_singleton]
        omega
    · have hlt := ih hrest ?_ insn hmem r hr
      · omega
      · intro q hq
        rw [hlen]
        obtain hq | hq := List.mem_append.mp hq
        · have := henv q hq
          omega
        · have hd := Option.mem_toList.mp hq
          have hone : first.dst.toList.length = 1 := by
            rw [hd, Option.toList_some, List.length_singleton]
          have := hdst q hd
          omega

/-- A fragment has registers of its own. -/
theorem fragment.registers (f : fragment) (base : Nat) :
    ∀ insn ∈ f.insns.map (irInstruction.shift base), ∀ r, irRegisters insn r →
      base ≤ r ∧ r < base + (results f.insns).length := by
  intro insn hmem r hr
  obtain ⟨insn', hmem', rfl⟩ := List.mem_map.mp hmem
  have hlt : ∀ r', irRegisters insn' r' → r' < (results f.insns).length := by
    intro r' hr'
    have := f.ssa.registers (by rintro q ⟨⟩) insn' hmem' r' hr'
    rwa [List.length_nil, Nat.zero_add] at this
  obtain ⟨q, hq, rfl⟩ | ⟨d, hd, rfl⟩ := hr
  · rw [reads_shift] at hq
    obtain ⟨q', hq', rfl⟩ := List.mem_map.mp hq
    have := hlt _ (irRegisters_read hq')
    rw [index_shift]
    omega
  · rw [dst_shift] at hd
    obtain ⟨d', hd', rfl⟩ := Option.map_eq_some_iff.mp hd
    have := hlt _ (irRegisters_dst hd')
    rw [index_shift]
    omega

theorem results_shift (base : Nat) (insns : List irInstruction) :
    results (insns.map (irInstruction.shift base)) = (results insns).map (irRegister.shift base) := by
  induction insns with
  | nil => rfl
  | cons insn insns ih =>
    rw [List.map_cons, results_cons, results_cons, ih, dst_shift, List.map_append]
    cases insn.dst <;> rfl

theorem fragment.plain_shift (f : fragment) (base : Nat) (v : BitVec 32) :
    .marker v ∉ f.insns.map (irInstruction.shift base) := by
  intro hmem
  obtain ⟨insn, hinsn, heq⟩ := List.mem_map.mp hmem
  refine shift_ne_marker base (fun v hv => f.plain v (hv ▸ hinsn)) v heq

end after

end Umeq.Jitter
