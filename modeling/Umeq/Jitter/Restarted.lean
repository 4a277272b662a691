import Umeq.Arm64.PairLoads
import Umeq.Arm.LoadMultiple

/-! # Loads of several registers that fault

    The guests have three instructions that load several registers with one access each.
    All of them write a register as soon as it is loaded, and only the write back of the
    base comes last.
-/

namespace Umeq

open Jitter.X86_64.Guest

/-- LDP, LDM and POP can be started again after a fault exactly when no register that is loaded
    before the last one is the base. -/
theorem loads_restartable (insn : BitVec 32) :
    (insn.getLsbD 22 = true →
      (Restartable (Arm64.dis_load_store_pair insn) ↔
        ¬ (insn.extractLsb' 0 5 = insn.extractLsb' 5 5 ∧ insn.extractLsb' 5 5 ≠ 31))) ∧
    (insn.getLsbD 22 = true → Restartable (Arm64.dis_load_store_pair_simd_vfp insn)) ∧
    (insn.getLsbD 22 = false → insn.getLsbD 20 = true →
      ((∀ context, Restartable (Arm.dis_ldm_stm context insn)) ↔ ¬ Arm.BaseOverwritten insn)) ∧
    ∀ context insn, Restartable (Arm.dis_t1_pop context insn) :=
  ⟨Arm64.restartable_pair_iff, Arm64.restartable_pair_simd, Arm.restartable_ldm_iff,
    Arm.restartable_pop⟩

/-- LDP x1, x2, [x3]. -/
theorem loads_restartable_pair : (0xa9400861#32).getLsbD 22 = true ∧
    Restartable (Arm64.dis_load_store_pair 0xa9400861#32) :=
  have h : (0xa9400861#32).getLsbD 22 = true := by decide
  ⟨h, ((loads_restartable 0xa9400861#32).1 h).mpr (by decide)⟩

/-- LDP x1, x2, [x1]. -/
theorem pair_not_restartable : (0xa9400821#32).getLsbD 22 = true ∧
    ¬ Restartable (Arm64.dis_load_store_pair 0xa9400821#32) :=
  have h : (0xa9400821#32).getLsbD 22 = true := by decide
  ⟨h, fun hrestart => (Arm64.restartable_pair_iff h).mp hrestart (by decide)⟩

end Umeq
