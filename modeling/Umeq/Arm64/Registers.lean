import Umeq.Jitter.X8664.Execute

/-! # The registers of an ARM64 guest

    What `arm64_disassembler.c` reads and writes of `struct arm64_registers`. Register 31
    is the stack pointer or reads as zero and drops what is written to it; which of both, a
    caller says.
-/

namespace Umeq.Arm64

open Jitter.X86_64.Guest

/-- The two halves of `union simd_register`. -/
structure simd_register where
  lsb : BitVec 64
  msb : BitVec 64
  deriving DecidableEq

def simd_register.v128 (v : simd_register) : BitVec 128 := v.msb ++ v.lsb

/-- The part of `struct arm64_registers` that the instructions modelled here use. -/
structure arm64_registers where
  r : BitVec 5 → BitVec 64
  v : BitVec 5 → simd_register

def ZERO_REG : Bool := true
def SP_REG : Bool := false

namespace arm64_registers

variable (c : arm64_registers)

def x (index : BitVec 5) (is_zero : Bool) : BitVec 64 :=
  if index = 31 ∧ is_zero then 0 else c.r index

def set_x (index : BitVec 5) (is_zero : Bool) (value : BitVec 64) : arm64_registers :=
  if index = 31 ∧ is_zero then c else { c with r := Function.update c.r index value }

def set_v (index : BitVec 5) (value : simd_register) : arm64_registers :=
  { c with v := Function.update c.v index value }

def set_lsb (index : BitVec 5) (value : BitVec 64) : arm64_registers :=
  c.set_v index { c.v index with lsb := value }

def set_msb (index : BitVec 5) (value : BitVec 64) : arm64_registers :=
  c.set_v index { c.v index with msb := value }

end arm64_registers

/-- The width of the registers of an instruction. -/
def register_width (insn : BitVec 32) : Nat := if insn.getLsbD 31 then 64 else 32

section registers

variable (index : BitVec 5) (value : BitVec 64) (is_zero : Bool)

def read_x : Run arm64_registers (BitVec 64) := add_read_context fun c => c.x index is_zero

def write_x : Run arm64_registers Unit := add_write_context fun c => c.set_x index is_zero value

def read_w : Run arm64_registers (BitVec 64) :=
  add_read_context fun c => ((c.x index is_zero).setWidth 32).setWidth 64

def write_w : Run arm64_registers Unit := write_x index (add_32U_to_64 value) is_zero

def write_w_sign_extend : Run arm64_registers Unit := write_x index (add_32S_to_64 value) is_zero

def write_v_lsb : Run arm64_registers Unit := add_write_context fun c => c.set_lsb index value

def write_v_msb : Run arm64_registers Unit := add_write_context fun c => c.set_msb index value

def read_v_lsb : Run arm64_registers (BitVec 64) := add_read_context fun c => (c.v index).lsb

def read_v_msb : Run arm64_registers (BitVec 64) := add_read_context fun c => (c.v index).msb

def write_d : Run arm64_registers Unit := write_v_lsb index value

def write_s : Run arm64_registers Unit := write_v_lsb index (add_32U_to_64 value)

def write_h : Run arm64_registers Unit := write_v_lsb index (add_16U_to_64 value)

def write_b : Run arm64_registers Unit := write_v_lsb index (add_8U_to_64 value)

end registers

end Umeq.Arm64
