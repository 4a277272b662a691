import Umeq.Jitter.X8664.Execute

/-! # The registers of an ARM guest

    What `arm_disassembler.c` and `thumb_disassembler.c` read and write of
    `struct arm_registers`.
-/

namespace Umeq.Arm

open Jitter.X86_64.Guest

/-- The part of `struct arm_registers` that the instructions modelled here use. -/
structure arm_registers where
  r : BitVec 4 → BitVec 32
  cpsr : BitVec 32
  shifter_carry_out : BitVec 32

/-- The part of `struct arm_target` that the disassemblers look at, and the offset of the guest
    memory in that of the host. -/
structure arm_target where
  pc : BitVec 32
  mmap_offset : BitVec 64

section registers

variable (context : arm_target)

/-- `read_reg` of `arm_disassembler.c`. -/
def read_reg (index : BitVec 4) : Run arm_registers (BitVec 64) :=
  if index = 15 then pure (mk_32 (context.pc + 8))
  else add_read_context fun c => (c.r index).setWidth 64

/-- `read_reg` of `thumb_disassembler.c`. -/
def thumb_read_reg (index : BitVec 4) : Run arm_registers (BitVec 64) :=
  if index = 15 then pure (mk_32 ((context.pc + 4) &&& ~~~ 1#32))
  else add_read_context fun c => (c.r index).setWidth 64

def write_reg (index : BitVec 4) (value : BitVec 64) : Run arm_registers Unit :=
  add_write_context fun c => { c with r := Function.update c.r index (value.setWidth 32) }

def read_cpsr : Run arm_registers (BitVec 64) := add_read_context fun c => c.cpsr.setWidth 64

def write_sco (value : BitVec 64) : Run arm_registers Unit :=
  add_write_context fun c => { c with shifter_carry_out := value.setWidth 32 }

def mk_address (address : BitVec 64) : BitVec 64 :=
  if context.mmap_offset ≠ 0 then add_add_64 (add_32U_to_64 address) context.mmap_offset
  else address

end registers

end Umeq.Arm
