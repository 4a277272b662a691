import Umeq.Jitter.X8664.Run
import Umeq.Jitter.X8664.Values

/-! # The back end keeps the meaning of a program

    The code of a program does what the program means. The host registers agree with
    the virtual registers at their widths; what lies above only matters to the operands
    of which an instruction looks at more (`x86Instruction.tested`), and these must
    hold no more than their values.

    * `Matches`: a host state at a point of the code and a state of the program there.
    * `OneStep`: an instruction and the one that it is lowered to do the same.
    * `simulates`: a run of the program is followed by a run of the code.
-/

namespace Umeq.Jitter

open Words

section states

variable {s : ir_state} {d r : irRegister}

theorem get_set_self (s : ir_state) (d : irRegister) (v : BitVec 64) :
    (s.set d v).get d = low d.type v := by
  simp [ir_state.get, ir_state.set]

theorem get_set_ne (h : r.index ≠ d.index) (v : BitVec 64) : (s.set d v).get r = s.get r := by
  simp [ir_state.get, ir_state.set, Function.update_of_ne h]

end states

end Umeq.Jitter

namespace Umeq.Jitter.X86_64

open Bytes Words X86

/-! ## Operands that must hold no more than their values -/

/-- The operands of which the host looks at more than their width: addresses, the
    operands of right shifts and comparisons, predicates, and what a cast or a context
    write takes from a narrower register. -/
def x86Instruction.tested (W : Nat → width) : x86Instruction → List Nat
  | .load _ _ address | .store _ _ address | .call address _ _ => [address]
  | .binop _ .SHR _ op1 _ => [op1]
  | .binop _ .CMPEQ _ op1 op2 | .binop _ .CMPNE _ op1 op2 => [op1, op2]
  | .binop _ _ _ _ _ => []
  | .ite _ pred _ _ => [pred]
  | .cast type _ op => if (W op).bits < (cast_looks type).bits then [op] else []
  | .exit _ pred _ => pred.toList
  | .write w src _ => if (W src).bits < w.bits then [src] else []
  | .mov_const _ _ | .read _ _ _ | .marker _ => []

/-- A call as the function sees it. -/
def seen_call (h : helpers) (call : BitVec 64 × (Reg → BitVec 64)) : BitVec 64 × (Fin 4 → BitVec 64) :=
  (call.1, h.seen call.1 (args_of call.2))

/-! ## One instruction -/

/-- From `s` to `s'` an instruction has the effect that `xi` has on the host. -/
structure OneStep (h : helpers) (b : Nat → Fin 8) (c : cpu) (xi : x86Instruction)
    (insn : irInstruction) (s s' : ir_state) : Prop where
  stays : ¬ xi.leaves b c
  mem : s'.mem = xi.memory h b c
  calls : s'.calls = s.calls ++ (xi.makes b c).map (seen_call h)
  result : ∀ d, insn.dst = some d → low d.type (xi.value h b c) = s'.get d
  frame : ∀ r, (∀ d, insn.dst = some d → r.index ≠ d.index) → s'.get r = s.get r

section instruction

variable {h : helpers} {context : BitVec 64} {b : Nat → Fin 8} {c : cpu} {s s' : ir_state}
  {insn : irInstruction} {W : Nat → width} {B : irRegister → Nat} {is_patchable : Bool}

/-- An instruction that only gives a value to a register. -/
theorem one_set {xi : x86Instruction} {d : irRegister} {v : BitVec 64} (hdst : insn.dst = some d)
    (hstays : ¬ xi.leaves b c) (hmem : s.mem = xi.memory h b c) (hcalls : xi.makes b c = [])
    (hvalue : low d.type (xi.value h b c) = low d.type v) : OneStep h b c xi insn s (s.set d v) := by
  refine ⟨hstays, hmem, by simp [hcalls, ir_state.set], ?_, ?_⟩
  · intro d' hd'
    obtain rfl := Option.some.inj (hdst.symm.trans hd')
    rw [get_set_self, hvalue]
  · intro r hr
    exact get_set_ne (hr d hdst) v

/-- An instruction that only changes the memory. -/
theorem one_memory {xi : x86Instruction} {m : Mem} (hdst : insn.dst = none)
    (hstays : ¬ xi.leaves b c) (hmem : m = xi.memory h b c) (hcalls : xi.makes b c = []) :
    OneStep h b c xi insn s { s with mem := m } := by
  refine ⟨hstays, hmem, by simp [hcalls], ?_, fun _ _ => rfl⟩
  intro d hd
  rw [hdst] at hd
  cases hd

/-- A tested operand. -/
theorem eq_of_clean {r : irRegister} {v : Nat} (hW : W v = r.type)
    (hop : low r.type (view c (b v)) = s.get r) (hclean : Clean (W v) (view c (b v))) :
    view c (b v) = s.get r := by
  rw [hW] at hclean
  rw [← hop]
  exact hclean.symm

/-- The arguments of a call, as the function sees them. -/
theorem seen_args {address : irRegister} {param : Fin 4 → Option irRegister} {a : Fin 8}
    (hreads : ∀ i, h.reads (s.get address) i ≤ passed param i)
    (hparam : ∀ i r, param i = some r → low r.type (view c (b (B r))) = s.get r) :
    h.seen (s.get address) (args_of (at_call c a fun i => ((param i).map B).map b).regs) =
      h.seen (s.get address) (s.args param) := by
  funext i
  have hle := hreads i
  unfold helpers.seen
  congr 1
  cases hi : param i with
  | none =>
    -- nothing is passed, and nothing is read
    rw [passed, hi] at hle
    have hzero : h.reads (s.get address) i = 0 := Nat.le_zero.mp hle
    rw [hzero]
    exact Subsingleton.elim _ _
  | some r =>
    rw [passed, hi] at hle
    have harg := at_call_args (c := c) a (fun i => ((param i).map B).map b) (i := i) (s := b (B r))
      (by simp [hi])
    rw [harg]
    have hval : s.args param i = s.get r := by simp [ir_state.args, hi]
    rw [hval, ← hparam i r hi]
    simp only [Option.map_some, Option.getD_some] at hle
    have hbits := bits_le r.type
    ext n hn
    simp only [low, BitVec.getElem_setWidth, BitVec.getLsbD_setWidth]
    simp [show n < 64 by omega, show n < r.type.bits by omega]

/-- The operands of an instruction are in their registers, and what is tested of them
    holds no more than its value. -/
structure Operands (W : Nat → width) (b : Nat → Fin 8) (B : irRegister → Nat) (c : cpu)
    (s : ir_state) (insn : irInstruction) (xi : x86Instruction) : Prop where
  types : ∀ r ∈ insn.reads, W (B r) = r.type
  value : ∀ r ∈ insn.reads, low r.type (view c (b (B r))) = s.get r
  clean : ∀ v ∈ xi.tested W, Clean (W v) (view c (b v))

theorem Operands.eq {xi : x86Instruction} (hops : Operands W b B c s insn xi) {r : irRegister}
    (hr : r ∈ insn.reads) (ht : B r ∈ xi.tested W) : view c (b (B r)) = s.get r :=
  eq_of_clean (hops.types r hr) (hops.value r hr) (hops.clean _ ht)

/-- An instruction that goes on does what it means. -/
theorem one_step (hops : Operands W b B c s insn (lower B is_patchable insn)) (htyped : insn.typed)
    (hasr : ∀ w d op1 op2, insn = .binop .ASR w d op1 op2 → w = .w64)
    (hrdi : c.regs rdi = context) (hmem : c.mem = s.mem)
    (hexec : insn.exec h context s = some (.next s')) :
    OneStep h b c (lower B is_patchable insn) insn s s' := by
  cases insn with
  | mov w dst value =>
    obtain rfl := ir_outcome.next.inj (Option.some.inj hexec)
    exact one_set rfl id hmem.symm rfl rfl
  | load w dst address =>
    obtain rfl := ir_outcome.next.inj (Option.some.inj hexec)
    have haddress := hops.eq (r := address) (by simp [irInstruction.reads])
      (by simp [lower, x86Instruction.tested])
    refine one_set rfl id hmem.symm rfl ?_
    rw [show dst.type = w from htyped]
    simp only [lower, x86Instruction.value, low_merge, haddress, hmem]
  | store w src address =>
    obtain rfl := ir_outcome.next.inj (Option.some.inj hexec)
    have haddress := hops.eq (r := address) (by simp [irInstruction.reads])
      (by simp [lower, x86Instruction.tested])
    have hsrc := hops.value src (by simp [irInstruction.reads])
    rw [show src.type = w from htyped] at hsrc
    refine one_memory rfl id ?_ rfl
    simp only [lower, x86Instruction.memory, haddress, hmem]
    refine (store_low _ _ ?_).symm
    rw [← hsrc, low_low]
  | binop type w dst op1 op2 =>
    obtain ⟨hd, h₁, h₂⟩ := htyped
    simp only [irInstruction.exec] at hexec
    split_ifs at hexec with hdef
    obtain rfl := ir_outcome.next.inj (Option.some.inj hexec)
    have hmem₁ : op1 ∈ (irInstruction.binop type w dst op1 op2).reads := by simp [irInstruction.reads]
    have hmem₂ : op2 ∈ (irInstruction.binop type w dst op1 op2).reads := by simp [irInstruction.reads]
    have hx := hops.value op1 hmem₁
    have hy := hops.value op2 hmem₂
    have hw₁ := hops.types op1 hmem₁
    have hw₂ := hops.types op2 hmem₂
    rw [h₁] at hx hw₁
    rw [h₂] at hy hw₂
    refine one_set rfl id hmem.symm rfl ?_
    rw [hd]
    simp only [lower, x86Instruction.value, low_low]
    refine low_host_binop hx hy hdef ?_ ?_ ?_
    · intro htype
      rw [← hw₁]
      apply hops.clean
      rcases htype with rfl | rfl | rfl <;> simp [lower, x86Instruction.tested]
    · intro htype
      have hclean : Clean (W (B op2)) (view c (b (B op2))) := by
        apply hops.clean
        rcases htype with rfl | rfl <;> simp [lower, x86Instruction.tested]
      rw [hw₂] at hclean
      rcases htype with rfl | rfl <;> exact hclean
    · intro htype
      exact hasr w dst op1 op2 (by rw [htype])
  | ite w dst pred trueOp falseOp =>
    obtain ⟨hd, h₁, h₂⟩ := htyped
    obtain rfl := ir_outcome.next.inj (Option.some.inj hexec)
    have hpred := hops.eq (r := pred) (by simp [irInstruction.reads])
      (by simp [lower, x86Instruction.tested])
    have htrue := hops.value trueOp (by simp [irInstruction.reads])
    have hfalse := hops.value falseOp (by simp [irInstruction.reads])
    refine one_set rfl id hmem.symm rfl ?_
    simp only [lower, x86Instruction.value, hpred]
    split_ifs
    · rw [hd, ← htrue, low_low]
    · rw [hd, h₁, ← h₂, ← hfalse, low_low]
  | cast type dst op =>
    obtain rfl := ir_outcome.next.inj (Option.some.inj hexec)
    have hmem₁ : op ∈ (irInstruction.cast type dst op).reads := by simp [irInstruction.reads]
    refine one_set rfl id hmem.symm rfl ?_
    rw [show dst.type = type.target from htyped]
    simp only [lower, x86Instruction.value]
    apply low_host_cast
    by_cases hlt : op.type.bits < (cast_looks type).bits
    · -- the cast looks at more than the operand has
      rw [hops.eq hmem₁ (by simp [lower, x86Instruction.tested, hops.types op hmem₁, hlt])]
    · exact low_of_low (Nat.not_lt.mp hlt) (hops.value op hmem₁)
  | exit value pred =>
    simp only [irInstruction.exec] at hexec
    by_cases hall : ∀ q, pred = some q → s.get q ≠ 0
    · rw [if_pos hall] at hexec
      cases Option.some.inj hexec
    rw [if_neg hall] at hexec
    obtain rfl := ir_outcome.next.inj (Option.some.inj hexec)
    refine one_memory (m := s.mem) rfl ?_ hmem.symm rfl
    intro hleaves
    apply hall
    intro q hq
    rw [← hops.eq (r := q) (by simp [irInstruction.reads, hq])
      (by simp [lower, x86Instruction.tested, hq])]
    exact hleaves (B q) (by simp [hq])
  | call address param result =>
    simp only [irInstruction.exec] at hexec
    split_ifs at hexec with hreads
    have haddress := hops.eq (r := address) (by simp [irInstruction.reads])
      (by simp [lower, x86Instruction.tested])
    have hseen := seen_args (h := h) (c := c) (b := b) (B := B) (a := b (B address)) hreads
      fun i r hi => hops.value r (List.mem_cons_of_mem _ (mem_params.mpr ⟨i, hi⟩))
    have hcalled : called h c (b (B address)) (fun i => ((param i).map B).map b) =
        h.run (s.get address) context (h.seen (s.get address) (s.args param)) s.mem := by
      rw [called, haddress, hseen, hrdi, hmem]
    obtain rfl := ir_outcome.next.inj (Option.some.inj hexec)
    refine ⟨id, ?_, ?_, ?_, ?_⟩
    · simp only [lower, x86Instruction.memory, hcalled]
      cases result <;> rfl
    · simp only [lower, x86Instruction.makes, List.map_cons, List.map_nil, seen_call, haddress,
        hseen]
      cases result <;> rfl
    · intro d hd
      obtain rfl : result = some d := hd
      simp only [lower, x86Instruction.value, hcalled]
      exact (get_set_self _ _ _).symm
    · intro r hr
      cases result with
      | none => rfl
      | some d => exact get_set_ne (hr d rfl) _
  | read_context w dst offset =>
    obtain rfl := ir_outcome.next.inj (Option.some.inj hexec)
    refine one_set rfl id hmem.symm rfl ?_
    rw [show dst.type = w from htyped]
    simp only [lower, x86Instruction.value, low_merge, hrdi, hmem]
  | write_context w src offset =>
    obtain rfl := ir_outcome.next.inj (Option.some.inj hexec)
    have hmem₁ : src ∈ (irInstruction.write_context w src offset).reads := by
      simp [irInstruction.reads]
    refine one_memory rfl id ?_ rfl
    simp only [lower, x86Instruction.memory, hrdi, hmem]
    refine (store_low _ _ ?_).symm
    by_cases hlt : src.type.bits < w.bits
    · rw [hops.eq hmem₁ (by simp [lower, x86Instruction.tested, hops.types src hmem₁, hlt])]
    · exact low_of_low (Nat.not_lt.mp hlt) (hops.value src hmem₁)
  | marker value =>
    obtain rfl := ir_outcome.next.inj (Option.some.inj hexec)
    exact one_memory (m := s.mem) rfl id hmem.symm rfl

/-- An exit that is taken. -/
theorem one_exit {v : BitVec 64} (hops : Operands W b B c s insn (lower B is_patchable insn))
    (htyped : insn.typed) (hexec : insn.exec h context s = some (.exit v s')) :
    ∃ value pred, insn = .exit value pred ∧ s' = s ∧ view c (b (B value)) = v ∧
      (lower B is_patchable insn).leaves b c := by
  cases insn with
  | exit value pred =>
    simp only [irInstruction.exec] at hexec
    by_cases hall : ∀ q, pred = some q → s.get q ≠ 0
    · rw [if_pos hall] at hexec
      obtain ⟨rfl, rfl⟩ := ir_outcome.exit.inj (Option.some.inj hexec)
      refine ⟨value, pred, rfl, rfl, ?_, ?_⟩
      · have hvalue := hops.value value (by simp [irInstruction.reads])
        rw [← hvalue, show value.type = .w64 from htyped, low_w64]
      · intro q hq
        obtain ⟨r, hr, rfl⟩ := Option.map_eq_some_iff.mp hq
        rw [hops.eq (r := r) (by simp [irInstruction.reads, hr])
          (by simp [lower, x86Instruction.tested, hr])]
        exact hall r hr
    · rw [if_neg hall] at hexec
      cases Option.some.inj hexec
  | binop type w dst op1 op2 =>
    simp only [irInstruction.exec] at hexec
    split_ifs at hexec
    cases Option.some.inj hexec
  | call address param result =>
    simp only [irInstruction.exec] at hexec
    split_ifs at hexec
    cases Option.some.inj hexec
  | _ => cases Option.some.inj hexec

end instruction

/-! ## Whole programs -/

/-- At the start of instruction `k` the host is in the state of the program, as far as
    the registers of `env` are still to be read. -/
structure Matches {j : jitter} {p : program} (x : Compiled j p) (h : helpers) (context : BitVec 64)
    (env : List irRegister) (k : Nat) (s : ir_state) (c : cpu) : Prop where
  rdi : c.regs rdi = context
  mem : c.mem = s.mem
  calls : c.calls.map (seen_call h) = s.calls
  defined : ∀ r ∈ env, ∀ v, (allocateInstructions j).backend r.index = some v →
    v ∈ dsts ((allocateInstructions j).insns.take k)
  value : ∀ r ∈ env, ∀ v, (allocateInstructions j).backend r.index = some v → Live j k v →
    low r.type (view c (x.place v)) = s.get r

section program

variable {j : jitter} {p : program} {x : Compiled j p} {h : helpers} {r : clobber}
  {context : BitVec 64} {env news : List irRegister} {k : Nat} {s s' : ir_state} {c₀ c c' : cpu}
  {xi : x86Instruction}

/-- One lowered instruction. `news` are the registers that it defines. -/
theorem Matches.after (hm : Matches x h context env k s c)
    (hinsn : (allocateInstructions j).insns[k]? = some xi) (hexec : Executed h x.place c xi c')
    (hmem : s'.mem = xi.memory h x.place c)
    (hcalls : s'.calls = s.calls ++ (xi.makes x.place c).map (seen_call h))
    (hframe : ∀ r ∈ env, s'.get r = s.get r)
    (hnew : ∀ d ∈ news, ∀ v, (allocateInstructions j).backend d.index = some v →
      xi.dst = some v ∧ low d.type (xi.value h x.place c) = s'.get d) :
    Matches x h context (env ++ news) (k + 1) s' c' := by
  have htake : dsts ((allocateInstructions j).insns.take (k + 1)) =
      dsts ((allocateInstructions j).insns.take k) ++ xi.dst.toList := by
    rw [List.take_add_one, hinsn, Option.toList_some, dsts_append, dsts_singleton]
  refine ⟨hexec.rdi.trans hm.rdi, hexec.mem.trans hmem.symm, ?_, ?_, ?_⟩
  · rw [hexec.calls, List.map_append, hm.calls, hcalls]
  · intro r hr v hv
    rw [htake]
    rcases List.mem_append.mp hr with hr | hr
    · exact List.mem_append_left _ (hm.defined r hr v hv)
    · rw [(hnew r hr v hv).1]
      simp
  · intro r hr v hv hlive
    rcases List.mem_append.mp hr with hr | hr
    · have hbefore : Live j k v := by
        rcases live_succ hinsn hlive with hdst | hbefore
        · -- it was defined before
          exact absurd (hm.defined r hr v hv) (x.typed.fresh hinsn hdst)
        · exact hbefore
      rw [x.kept hinsn hexec hbefore, hframe r hr]
      exact hm.value r hr v hv hbefore
    · obtain ⟨hdst, hvalue⟩ := hnew r hr v hv
      rw [hexec.result hdst, hvalue]

/-- Every operand that the run looks at in full holds no more than its value. -/
def Compiled.Tested (x : Compiled j p) (h : helpers) (r : clobber) (c₀ : cpu) : Prop :=
  ∀ k c xi, x.At (host h r) c₀ k c → (allocateInstructions j).insns[k]? = some xi →
    ∀ v ∈ xi.tested (virtual_width j), Words.Clean (virtual_width j v) (view c (x.place v))

/-- The operands of an instruction that the run has come to. -/
theorem Matches.operands {insn : irInstruction} {B : irRegister → Nat}
    (hm : Matches x h context env k s c) (htested : x.Tested h r c₀)
    (hat : x.At (host h r) c₀ k c) (hinsn : (allocateInstructions j).insns[k]? = some xi)
    (henv : ∀ r ∈ env, r ∈ results j.insns) (hreads : ∀ r ∈ insn.reads, r ∈ env)
    (hB : ∀ r ∈ insn.reads, (allocateInstructions j).backend r.index = some (B r))
    (hxi : ∀ r ∈ insn.reads, B r ∈ xi.reads) :
    Operands (virtual_width j) x.place B c s insn xi := by
  have htracks := tracks_allocateInstructions (wellBuilt_of_built x.built)
  refine ⟨?_, ?_, htested k c xi hat hinsn⟩
  · intro r hr
    exact htracks.widths r (henv r (hreads r hr)) _ (hB r hr)
  · intro r hr
    exact hm.value r (hreads r hr) _ (hB r hr) (x.live_of_read hinsn (hxi r hr))

/-- An instruction that is lowered to one, and goes on. -/
theorem Matches.one {insn : irInstruction} {B : irRegister → Nat} {is_patchable : Bool}
    (hm : Matches x h context env k s c) (hat : x.At (host h r) c₀ k c)
    (hinsn : (allocateInstructions j).insns[k]? = some (lower B is_patchable insn))
    (hops : Operands (virtual_width j) x.place B c s insn (lower B is_patchable insn))
    (htyped : insn.typed) (hasr : ∀ w d op1 op2, insn = .binop .ASR w d op1 op2 → w = .w64)
    (hnumbered : ∀ r ∈ env, ∀ d, insn.dst = some d → r.index ≠ d.index)
    (hB : ∀ d, insn.dst = some d → (allocateInstructions j).backend d.index = some (B d))
    (hexec : insn.exec h context s = some (.next s')) :
    ∃ c', x.At (host h r) c₀ (k + 1) c' ∧
      Matches x h context (env ++ insn.dst.toList) (k + 1) s' c' := by
  have hone := one_step hops htyped hasr hm.rdi hm.mem hexec
  obtain ⟨c', hat', hexecuted⟩ := x.next hat hinsn hone.stays
  refine ⟨c', hat', hm.after hinsn hexecuted hone.mem hone.calls ?_ ?_⟩
  · intro r hr
    exact hone.frame r (hnumbered r hr)
  · intro d hd v hv
    have hd := Option.mem_toList.mp hd
    rw [hB d hd] at hv
    obtain rfl := Option.some.inj hv
    exact ⟨by rw [lower_dst, hd]; rfl, hone.result d hd⟩

/-- A context read that is dropped. -/
theorem Matches.dropped {d : irRegister} (v : BitVec 64) (hm : Matches x h context env k s c)
    (hnumbered : ∀ r ∈ env, r.index ≠ d.index)
    (hB : (allocateInstructions j).backend d.index = none) :
    Matches x h context (env ++ [d]) k (s.set d v) c := by
  refine ⟨hm.rdi, hm.mem, hm.calls, ?_, ?_⟩
  · intro r hr u hu
    rcases List.mem_append.mp hr with hr | hr
    · exact hm.defined r hr u hu
    · rw [List.mem_singleton.mp hr, hB] at hu
      cases hu
  · intro r hr u hu hlive
    rcases List.mem_append.mp hr with hr | hr
    · rw [get_set_ne (hnumbered r hr)]
      exact hm.value r hr u hu hlive
    · rw [List.mem_singleton.mp hr, hB] at hu
      cases hu

/-- An instruction that writes a temporary. -/
theorem Matches.temporary (hm : Matches x h context env k s c) (hat : x.At (host h r) c₀ k c)
    (hinsn : (allocateInstructions j).insns[k]? = some xi) (hstays : ¬ xi.leaves x.place c)
    (hmem : xi.memory h x.place c = c.mem) (hcalls : xi.makes x.place c = []) :
    ∃ c', x.At (host h r) c₀ (k + 1) c' ∧ Executed h x.place c xi c' ∧
      Matches x h context env (k + 1) s c' := by
  obtain ⟨c', hat', hexecuted⟩ := x.next hat hinsn hstays
  have hafter : Matches x h context (env ++ []) (k + 1) s c' :=
    hm.after hinsn hexecuted (by rw [hmem, hm.mem]) (by simp [hcalls]) (fun _ _ => rfl) (by simp)
  rw [List.append_nil] at hafter
  exact ⟨c', hat', hexecuted, hafter⟩

/-- A narrow arithmetic shift: the operand is sign extended in temporaries first. -/
theorem Matches.asr {B : irRegister → Nat} {w : width} {d op1 op2 : irRegister} {t : Nat}
    (hm : Matches x h context env k s c) (hat : x.At (host h r) c₀ k c)
    (h₀ : (allocateInstructions j).insns[k]? = some (.mov_const t (BitVec.ofNat 64 (sign_shift w))))
    (h₁ : (allocateInstructions j).insns[k + 1]? = some (.binop .w64 .SHL (t + 1) (B op1) t))
    (h₂ : (allocateInstructions j).insns[k + 2]? = some (.binop .w64 .ASR (t + 2) (t + 1) t))
    (h₃ : (allocateInstructions j).insns[k + 3]? = some (.binop w .ASR (B d) (t + 2) (B op2)))
    (hop1 : op1 ∈ env) (hop2 : op2 ∈ env)
    (hB1 : (allocateInstructions j).backend op1.index = some (B op1))
    (hB2 : (allocateInstructions j).backend op2.index = some (B op2))
    (hB : (allocateInstructions j).backend d.index = some (B d))
    (htyped : (irInstruction.binop .ASR w d op1 op2).typed) (hnumbered : ∀ r ∈ env, r.index ≠ d.index)
    (hdef : (s.get op2).toNat < w.bits) :
    ∃ c', x.At (host h r) c₀ (k + 4) c' ∧ Matches x h context (env ++ [d]) (k + 4)
      (s.set d (irBinopType.ASR.eval w (s.get op1) (s.get op2))) c' := by
  obtain ⟨hd, htype1, htype2⟩ := htyped
  obtain ⟨c₁, hat₁, hexec₁, hm₁⟩ := hm.temporary hat h₀ id rfl rfl
  obtain ⟨c₂, hat₂, hexec₂, hm₂⟩ := hm₁.temporary hat₁ h₁ id rfl rfl
  obtain ⟨c₃, hat₃, hexec₃, hm₃⟩ := hm₂.temporary hat₂ h₂ id rfl rfl
  obtain ⟨c₄, hat₄, hexec₄⟩ := x.next hat₃ h₃ id
  -- the temporaries
  have hshift : (BitVec.ofNat 64 (sign_shift w)).toNat % 64 = sign_shift w := by
    cases w <;> rfl
  have ht₁ : view c₁ (x.place t) = BitVec.ofNat 64 (sign_shift w) := hexec₁.result rfl
  have ht₂ : view c₂ (x.place t) = BitVec.ofNat 64 (sign_shift w) := by
    rw [x.kept h₁ hexec₂ (x.live_of_read h₁ (by simp [x86Instruction.reads])), ht₁]
  have hleft : view c₂ (x.place (t + 1)) = view c₁ (x.place (B op1)) <<< sign_shift w := by
    rw [hexec₂.result rfl]
    simp only [x86Instruction.value, host_binop, low_w64, ht₁, hshift]
  have hright : view c₃ (x.place (t + 2)) =
      (view c₁ (x.place (B op1)) <<< sign_shift w).sshiftRight (sign_shift w) := by
    rw [hexec₃.result rfl]
    simp only [x86Instruction.value, host_binop, low_w64, ht₂, hleft, hshift]
  have hx := hm₁.value op1 hop1 _ hB1 (x.live_of_read h₁ (by simp [x86Instruction.reads]))
  have hy := hm₃.value op2 hop2 _ hB2 (x.live_of_read h₃ (by simp [x86Instruction.reads]))
  rw [htype1] at hx
  rw [htype2] at hy
  refine ⟨c₄, hat₄, hm₃.after h₃ hexec₄ hm₃.mem.symm (by simp [x86Instruction.makes, ir_state.set]) ?_ ?_⟩
  · intro r hr
    exact get_set_ne (hnumbered r hr) _
  · intro d' hd' v hv
    obtain rfl := List.mem_singleton.mp hd'
    rw [hB] at hv
    obtain rfl := Option.some.inj hv
    refine ⟨rfl, ?_⟩
    rw [get_set_self, hd]
    simp only [x86Instruction.value, host_binop, hright, low_low]
    exact low_narrow_asr hx hy hdef

/-- The code gives control back with this value, in this state of the memory, after these
    calls. -/
def Returns (p : program) (h : helpers) (r : clobber) (c₀ : cpu) (value : BitVec 64)
    (s : ir_state) : Prop :=
  ∃ c₁ c₂, Reaches p (host h r) c₀ c₁ ∧ step p (host h r) c₁ = some (.done c₂) ∧
    c₂.regs rax = value ∧ c₂.mem = s.mem ∧ c₂.calls.map (seen_call h) = s.calls

/-- The run of a program from one of its instructions on. -/
theorem simulates {insns : List irInstruction} {pre xs : List x86Instruction} {value : BitVec 64}
    (hentry : Entry c₀) (htested : x.Tested h r c₀)
    (hlowers : Lowers j.lastReadIndex (allocateInstructions j).backend insns xs)
    (hxs : (allocateInstructions j).insns = pre ++ xs) (hssa : Ssa env insns)
    (henv : ∀ r ∈ env ++ results insns, r ∈ results j.insns)
    (hnumbered : ∀ r ∈ env, r.index < env.length) (hat : x.At (host h r) c₀ pre.length c)
    (hm : Matches x h context env pre.length s c)
    (hrun : ir_run h context insns s = some (value, s')) : Returns p h r c₀ value s' := by
  induction insns generalizing env pre xs s c with
  | nil => cases hrun
  | cons insn insns ih =>
    obtain ⟨piece, rest, rfl, hstands, hrest⟩ := hlowers
    obtain ⟨htyped, hreads, hdst, hssa'⟩ := hssa
    obtain ⟨out, hexec, hcont⟩ := Option.bind_eq_some_iff.mp hrun
    rw [results_cons, ← List.append_assoc] at henv
    have hne : ∀ r ∈ env, ∀ d, insn.dst = some d → r.index ≠ d.index := by
      intro r hr d hd
      have := hnumbered r hr
      have := hdst d hd
      omega
    have hnumbered' : ∀ r ∈ env ++ insn.dst.toList, r.index < (env ++ insn.dst.toList).length := by
      intro r hr
      rw [List.length_append]
      rcases List.mem_append.mp hr with hr | hr
      · have := hnumbered r hr
        omega
      · have hr := Option.mem_toList.mp hr
        have := hdst r hr
        simp [hr]
        omega
    have hnth : ∀ n xi, piece[n]? = some xi →
        (allocateInstructions j).insns[pre.length + n]? = some xi := by
      intro n xi hn
      obtain ⟨hlt, -⟩ := List.getElem?_eq_some_iff.mp hn
      rw [hxs, List.getElem?_append_right (Nat.le_add_right _ _), Nat.add_sub_cancel_left,
        List.getElem?_append_left hlt, hn]
    cases hstands with
    | one B _ is_patchable hasr hB hBd =>
      have hinsn := hnth 0 _ rfl
      rw [Nat.add_zero] at hinsn
      have hops := hm.operands htested hat hinsn
        (fun r hr => henv r (List.mem_append_left _ (List.mem_append_left _ hr))) hreads hB
        (fun r hr => by rw [lower_reads]; exact List.mem_map_of_mem hr)
      cases out with
      | next s₁ =>
        obtain ⟨c', hat', hm'⟩ := hm.one hat hinsn hops htyped hasr hne hBd hexec
        have hlen : pre.length + 1 = (pre ++ [lower B is_patchable insn]).length := by simp
        rw [hlen] at hat' hm'
        exact ih hrest (by rw [hxs, List.append_assoc]) hssa' henv hnumbered' hat' hm' hcont
      | exit v s₁ =>
        obtain ⟨rfl, rfl⟩ := Prod.mk.inj (Option.some.inj hcont)
        obtain ⟨value, pred, rfl, rfl, hvalue, hleaves⟩ := one_exit hops htyped hexec
        obtain ⟨c₁, c₂, hreach, hdone, hrax, hmem, hcalls⟩ := x.exits hentry hat hinsn hleaves
        refine ⟨c₁, c₂, hreach, hdone, hrax.trans hvalue, hmem.trans hm.mem, ?_⟩
        rw [hcalls, hm.calls]
    | dropped w d offset hnone hBd =>
      obtain rfl := Option.some.inj hexec
      exact ih hrest hxs hssa' henv hnumbered' hat
        (hm.dropped _ (fun r hr => hne r hr d rfl) hBd) hcont
    | asr B w d op1 op2 t hw hB1 hB2 hBd =>
      simp only [irInstruction.exec] at hexec
      split_ifs at hexec with hdef
      obtain rfl := Option.some.inj hexec
      have hinsn := hnth 0 _ rfl
      rw [Nat.add_zero] at hinsn
      obtain ⟨c', hat', hm'⟩ := hm.asr hat hinsn (hnth 1 _ rfl) (hnth 2 _ rfl) (hnth 3 _ rfl)
        (hreads op1 (by simp [irInstruction.reads])) (hreads op2 (by simp [irInstruction.reads]))
        hB1 hB2 hBd htyped (fun r hr => hne r hr d rfl) hdef
      have hlen : pre.length + 4 = (pre ++ [x86Instruction.mov_const t (BitVec.ofNat 64 (sign_shift w)),
          .binop .w64 .SHL (t + 1) (B op1) t, .binop .w64 .ASR (t + 2) (t + 1) t,
          .binop w .ASR (B d) (t + 2) (B op2)]).length := by simp
      rw [hlen] at hat' hm'
      exact ih hrest (by rw [hxs, List.append_assoc]) hssa' henv hnumbered' hat' hm' hcont

/-- The code of a program does what the program means. -/
theorem Compiled.returns {env₀ : Nat → BitVec 64} {value : BitVec 64} (hentry : Entry c₀)
    (htested : x.Tested h r c₀)
    (hrun : ir_run h (c₀.regs rdi) j.insns ⟨env₀, c₀.mem, c₀.calls.map (seen_call h)⟩ =
      some (value, s')) : Returns p h r c₀ value s' := by
  have hwell := wellBuilt_of_built x.built
  have hat : x.At (host h r) c₀ ([] : List x86Instruction).length c₀ :=
    ⟨Nat.zero_le _, .refl, hentry.rip⟩
  have hm : Matches x h (c₀.regs rdi) [] ([] : List x86Instruction).length
      ⟨env₀, c₀.mem, c₀.calls.map (seen_call h)⟩ c₀ := ⟨rfl, rfl, rfl, by simp, by simp⟩
  exact simulates hentry htested (lowers_allocateInstructions hwell) rfl hwell.ssa (by simp) (by simp)
    hat hm hrun

end program

end Umeq.Jitter.X86_64
