import Umeq.Arm.Registers
import Umeq.Jitter.X8664.Restart

/-! # Loads of several registers in `arm_disassembler.c` and `thumb_disassembler.c`

    LDM and POP load the registers of a list in their order, each as soon as it is
    there. LDM may have its base in the list.
-/

namespace Umeq.Arm

open Bytes Words X86 Places Jitter.X86_64 Jitter.X86_64.Guest

/-! ## The translations -/

section translations

variable (context : arm_target) (insn : BitVec 32)

/-- The loop over the registers that are loaded, with the offset at its end. -/
def load_registers (start_address : BitVec 64) (reglist : BitVec 16) :
    List Nat → Nat → Run arm_registers Nat
  | [], offset => pure offset
  | i :: is, offset =>
    if reglist.getLsbD i then do
      write_reg (BitVec.ofNat 4 i) (← add_load .w32
        (mk_address context (add_add_32 start_address (mk_32 (BitVec.ofNat 32 offset)))))
      load_registers start_address reglist is (offset + 4)
    else load_registers start_address reglist is offset

/-- The loop over the registers that are stored. -/
def store_registers (start_address : BitVec 64) (reglist : BitVec 16) :
    List Nat → Nat → Run arm_registers Unit
  | [], _ => pure ()
  | i :: is, offset =>
    if reglist.getLsbD i then do
      add_store .w32 (← read_reg context (BitVec.ofNat 4 i))
        (mk_address context (add_add_32 start_address (mk_32 (BitVec.ofNat 32 offset))))
      store_registers start_address reglist is (offset + 4)
    else store_registers start_address reglist is offset

/-- The start address of LDM and STM, from the base. -/
def ldm_start_address (bitNb : Nat) (rn_reg : BitVec 64) : BitVec 64 :=
  let p := insn.getLsbD 24
  let u := insn.getLsbD 23
  if p then
    if u then add_add_32 rn_reg (mk_32 4#32)
    else add_sub_32 rn_reg (mk_32 (4#32 * BitVec.ofNat 32 bitNb))
  else
    if u then rn_reg
    else add_sub_32 rn_reg (mk_32 (4#32 * (BitVec.ofNat 32 bitNb - 1#32)))

def dis_ldm_stm : Run arm_registers Unit := do
  let u := insn.getLsbD 23
  let s := insn.getLsbD 22
  let w := insn.getLsbD 21
  let l := insn.getLsbD 20
  let rn := insn.extractLsb' 16 4
  let reglist := insn.extractLsb' 0 16
  assert_illegal_opcode (s = false)
  -- without a write back it is read for nothing
  let rn_initial_value ← read_reg context rn
  let bitNb := (List.range 16).countP reglist.getLsbD
  let start_address := ldm_start_address insn bitNb (← read_reg context rn)
  -- load/store registers
  if l then
    let offset ← load_registers context start_address reglist (List.range 15) 0
    if reglist.getLsbD 15 then
      let newPc ← add_load .w32
        (mk_address context (add_add_32 start_address (mk_32 (BitVec.ofNat 32 offset))))
      write_reg 15 newPc
  else
    store_registers context start_address reglist (List.range 16) 0
  -- update rn if needed
  if w then
    if u then
      write_reg rn (add_add_32 rn_initial_value (mk_32 (4#32 * BitVec.ofNat 32 bitNb)))
    else
      write_reg rn (add_sub_32 rn_initial_value (mk_32 (4#32 * BitVec.ofNat 32 bitNb)))

def dis_t1_pop : Run arm_registers Unit := do
  let reglist := (insn.extractLsb' 0 8).setWidth 16
  let p := insn.getLsbD 8
  let start_address ← thumb_read_reg context 13
  -- pop registers
  let offset ← load_registers context start_address reglist (List.range 8) 0
  if p then
    let newPc ← add_load .w32
      (mk_address context (add_add_32 start_address (mk_32 (BitVec.ofNat 32 offset))))
    write_reg 15 newPc
    -- update sp
    write_reg 13 (add_add_32 start_address (mk_32 (BitVec.ofNat 32 (offset + 4))))
  else
    write_reg 13 (add_add_32 start_address (mk_32 (BitVec.ofNat 32 offset)))

end translations

/-! ## The loads, as puts -/

def put (index : BitVec 4) (value : BitVec 32) (c : arm_registers) : arm_registers :=
  { c with r := Function.update c.r index value }

theorem lawful_put : Lawful put where
  same := by
    intro l v v' c
    simp [put]
  apart := by
    intro l l' h v v' c
    simp only [put]
    rw [Function.update_comm h]

theorem write_reg_puts (index : BitVec 4) (value : BitVec 64) :
    write_reg index value = add_write_context (puts put [(index, value.setWidth 32)]) := rfl

section steps

variable (context : arm_target) (start_address : BitVec 64)

/-- The load of one register. -/
def register_step (i offset : Nat) : load_step (BitVec 4) (BitVec 32) :=
  ⟨.w32, mk_address context (add_add_32 start_address (mk_32 (BitVec.ofNat 32 offset))),
    fun value => [(BitVec.ofNat 4 i, value.setWidth 32)]⟩

/-- The loads of the registers of a list. -/
def register_steps : List Nat → Nat → List (load_step (BitVec 4) (BitVec 32))
  | [], _ => []
  | i :: is, offset => register_step context start_address i offset :: register_steps is (offset + 4)

theorem register_steps_append (is js : List Nat) (offset : Nat) :
    register_steps context start_address (is ++ js) offset =
      register_steps context start_address is offset ++
        register_steps context start_address js (offset + 4 * is.length) := by
  induction is generalizing offset with
  | nil => rfl
  | cons i is ih =>
    simp only [List.cons_append, register_steps, ih, List.length_cons]
    rw [show offset + 4 + 4 * is.length = offset + 4 * (is.length + 1) by omega]

/-- The loop is the loads of the registers of the list. -/
theorem load_registers_eq {α : Type} (reglist : BitVec 16) (is : List Nat) (offset : Nat)
    (k : Nat → Run arm_registers α) :
    load_registers context start_address reglist is offset >>= k =
      loads put (register_steps context start_address (is.filter reglist.getLsbD) offset) >>= fun _ =>
        k (offset + 4 * (is.filter reglist.getLsbD).length) := by
  induction is generalizing offset with
  | nil => rfl
  | cons i is ih =>
    unfold load_registers
    by_cases h : reglist.getLsbD i = true
    · rw [if_pos h, List.filter_cons_of_pos h]
      simp only [register_steps, loads, register_step, write_reg_puts, bind_assoc, ih,
        List.length_cons]
      rw [show offset + 4 + 4 * (is.filter reglist.getLsbD).length
        = offset + 4 * ((is.filter reglist.getLsbD).length + 1) by omega]
    · rw [if_neg h, List.filter_cons_of_neg h, ih]

end steps

/-- The base of LDM. -/
def ldm_base (context : arm_target) (rn : BitVec 4) (c : arm_registers) : BitVec 64 :=
  if rn = 15 then mk_32 (context.pc + 8) else (c.r rn).setWidth 64

theorem read_reg_eq (context : arm_target) (rn : BitVec 4) :
    read_reg context rn = add_read_context (ldm_base context rn) := by
  unfold read_reg ldm_base
  split_ifs <;> rfl

theorem read_twice {C α β : Type} (f : C → α) (k : α → α → Run C β) :
    (add_read_context f >>= fun a => add_read_context f >>= fun b => k a b) =
      add_read_context f >>= fun b => k b b := rfl

/-- The registers of a list, in their order. -/
def registers (reglist : BitVec 16) : List Nat := (List.range 16).filter reglist.getLsbD

theorem registers_eq (reglist : BitVec 16) : registers reglist =
    (List.range 15).filter reglist.getLsbD ++ if reglist.getLsbD 15 then [15] else [] := by
  unfold registers
  rw [show List.range 16 = List.range 15 ++ [15] from rfl, List.filter_append]
  cases h : reglist.getLsbD 15
  · rw [List.filter_cons_of_neg (Bool.eq_false_iff.mp h)]
    rfl
  · rw [List.filter_cons_of_pos h]
    rfl

section ldm

variable (context : arm_target) (insn : BitVec 32)

/-- The loads of LDM. -/
def ldm_steps (base : BitVec 64) : List (load_step (BitVec 4) (BitVec 32)) :=
  register_steps context
    (ldm_start_address insn ((List.range 16).countP (insn.extractLsb' 0 16).getLsbD) base)
    (registers (insn.extractLsb' 0 16)) 0

/-- The base after LDM. -/
def ldm_back (base : BitVec 64) : List (BitVec 4 × BitVec 32) :=
  let size := mk_32 (4#32 * BitVec.ofNat 32 ((List.range 16).countP (insn.extractLsb' 0 16).getLsbD))
  if insn.getLsbD 21 then
    [(insn.extractLsb' 16 4,
      (if insn.getLsbD 23 then add_add_32 base size else add_sub_32 base size).setWidth 32)]
  else []

theorem add_write_nothing : (add_write_context (puts put []) : Run arm_registers Unit) = pure () := rfl

theorem dis_ldm_eq (hs : insn.getLsbD 22 = false) (hl : insn.getLsbD 20 = true) :
    dis_ldm_stm context insn = multi_load put (ldm_base context (insn.extractLsb' 16 4))
      (ldm_steps context insn) (ldm_back insn) := by
  have hassert : (assert_illegal_opcode (insn.getLsbD 22 = false) : Run arm_registers Unit) = pure () := by
    funext e s
    exact if_pos hs
  unfold dis_ldm_stm multi_load ldm_steps ldm_back
  simp only [hl, hassert, pure_bind, if_true, read_reg_eq, read_twice, load_registers_eq, registers_eq,
    register_steps_append, loads_append, bind_assoc, write_reg_puts]
  cases (insn.extractLsb' 0 16).getLsbD 15 <;> cases insn.getLsbD 21 <;> cases insn.getLsbD 23 <;>
    simp only [Bool.false_eq_true, if_false, if_true, add_write_nothing, register_steps, loads,
      register_step, pure_bind, bind_assoc]
  all_goals rfl

end ldm

/-! ## Lists that can be loaded again -/

section split

variable {context : arm_target} {start_address : BitVec 64}

/-- The loads before one of them are those of the registers before it. -/
theorem register_steps_split {is : List Nat} {offset : Nat}
    {pre post : List (load_step (BitVec 4) (BitVec 32))} {x : load_step (BitVec 4) (BitVec 32)}
    (h : register_steps context start_address is offset = pre ++ x :: post) :
    ∃ js i ks, is = js ++ i :: ks ∧ pre = register_steps context start_address js offset := by
  induction pre generalizing is offset with
  | nil =>
    cases is with
    | nil => cases h
    | cons i is => exact ⟨[], i, is, rfl, rfl⟩
  | cons y pre ih =>
    cases is with
    | nil => cases h
    | cons i is =>
      obtain ⟨rfl, hrest⟩ := List.cons.inj h
      obtain ⟨js, i', ks, rfl, rfl⟩ := ih hrest
      exact ⟨i :: js, i', ks, rfl, rfl⟩

/-- The registers that are written. -/
theorem mem_written {is : List Nat} {offset : Nat} {e : host_env} {m : Mem} {w : BitVec 4 × BitVec 32}
    (h : w ∈ written e m (register_steps context start_address is offset)) :
    ∃ i ∈ is, w.1 = BitVec.ofNat 4 i := by
  induction is generalizing offset with
  | nil => cases h
  | cons i is ih =>
    rcases List.mem_cons.mp h with rfl | hrest
    · exact ⟨i, List.mem_cons_self, rfl⟩
    · obtain ⟨j, hj, hw⟩ := ih hrest
      exact ⟨j, List.mem_cons_of_mem _ hj, hw⟩

end split

theorem registers_lt (reglist : BitVec 16) : (registers reglist).Pairwise (· < ·) :=
  List.Pairwise.filter _ List.pairwise_lt_range

theorem mem_registers {reglist : BitVec 16} {i : Nat} :
    i ∈ registers reglist ↔ i < 16 ∧ reglist.getLsbD i = true := by
  rw [registers, List.mem_filter, List.mem_range]

/-- The base is loaded before another register. -/
def BaseOverwritten (insn : BitVec 32) : Prop :=
  let rn := (insn.extractLsb' 16 4).toNat
  let reglist := insn.extractLsb' 0 16
  rn ≠ 15 ∧ reglist.getLsbD rn = true ∧ ∃ i < 16, rn < i ∧ reglist.getLsbD i = true

instance (insn : BitVec 32) : Decidable (BaseOverwritten insn) :=
  inferInstanceAs (Decidable (_ ∧ _ ∧ _))

theorem restartable_ldm (context : arm_target) {insn : BitVec 32} (hs : insn.getLsbD 22 = false)
    (hl : insn.getLsbD 20 = true) (h : ¬ BaseOverwritten insn) :
    Restartable (dis_ldm_stm context insn) := by
  rw [dis_ldm_eq context insn hs hl]
  apply restartable_multi_load lawful_put
  intro b pre x post hsteps e m w hw c
  obtain ⟨js, i, ks, hregisters, rfl⟩ := register_steps_split hsteps
  obtain ⟨j, hj, hwj⟩ := mem_written hw
  have hmem : ∀ k ∈ js ++ i :: ks, k < 16 ∧ (insn.extractLsb' 0 16).getLsbD k = true := by
    intro k hk
    rw [← hregisters] at hk
    exact mem_registers.mp hk
  have hlt : j < i := by
    have hpairwise := registers_lt (insn.extractLsb' 0 16)
    rw [hregisters] at hpairwise
    exact (List.pairwise_append.mp hpairwise).2.2 j hj i List.mem_cons_self
  have hj16 := hmem j (List.mem_append_left _ hj)
  have hi16 := hmem i (List.mem_append_right _ List.mem_cons_self)
  unfold ldm_base
  split_ifs with h15
  · rfl
  · -- the register is not the base: there is another one after it
    have hne : insn.extractLsb' 16 4 ≠ w.1 := by
      intro heq
      have hrn : (insn.extractLsb' 16 4).toNat = j := by
        rw [heq, hwj, BitVec.toNat_ofNat]
        omega
      refine h ⟨?_, ?_, i, hi16.1, ?_, hi16.2⟩
      · intro h'
        exact h15 (BitVec.eq_of_toNat_eq h')
      · rw [hrn]
        exact hj16.2
      · rw [hrn]
        exact hlt
    simp [put, Function.update_of_ne hne]

/-- The registers of POP. -/
def pop_registers (insn : BitVec 32) : List Nat :=
  (List.range 8).filter ((insn.extractLsb' 0 8).setWidth 16 : BitVec 16).getLsbD ++
    if insn.getLsbD 8 then [15] else []

theorem dis_t1_pop_eq (context : arm_target) (insn : BitVec 32) :
    dis_t1_pop context insn = multi_load put (fun c => (c.r 13).setWidth 64)
      (fun b => register_steps context b (pop_registers insn) 0)
      (fun b => [(13, (add_add_32 b
        (mk_32 (BitVec.ofNat 32 (4 * (pop_registers insn).length)))).setWidth 32)]) := by
  have hread : thumb_read_reg context 13 = add_read_context fun c => (c.r 13).setWidth 64 := by
    unfold thumb_read_reg
    exact if_neg (by decide)
  unfold dis_t1_pop multi_load pop_registers
  simp only [hread, load_registers_eq, register_steps_append, loads_append, bind_assoc, write_reg_puts,
    Nat.zero_add, List.length_append]
  cases insn.getLsbD 8
  · simp only [Bool.false_eq_true, if_false, register_steps, loads, pure_bind, List.length_nil,
      Nat.add_zero]
  · simp only [if_true, register_steps, register_step, loads, pure_bind, bind_assoc,
      List.length_cons, List.length_nil, Nat.mul_add]
    rfl

/-- The base of POP is in no list. -/
theorem restartable_pop (context : arm_target) (insn : BitVec 32) :
    Restartable (dis_t1_pop context insn) := by
  rw [dis_t1_pop_eq]
  apply restartable_multi_load lawful_put
  intro b pre x post hsteps e m w hw c
  obtain ⟨js, i, ks, hregisters, rfl⟩ := register_steps_split hsteps
  obtain ⟨j, hj, hwj⟩ := mem_written hw
  have hj' : j < 8 ∨ j = 15 := by
    have hmem : j ∈ pop_registers insn := by
      rw [hregisters]
      exact List.mem_append_left _ hj
    rcases List.mem_append.mp hmem with hlow | hpc
    · exact Or.inl (List.mem_range.mp (List.mem_filter.mp hlow).1)
    · split_ifs at hpc with hp
      · exact Or.inr (List.mem_singleton.mp hpc)
      · cases hpc
  have hne : (13 : BitVec 4) ≠ w.1 := by
    rw [hwj]
    intro heq
    have hnat := congrArg BitVec.toNat heq
    rw [BitVec.toNat_ofNat] at hnat
    change 13 = j % 2 ^ 4 at hnat
    omega
  have hr : (put w.1 w.2 c).r 13 = c.r 13 := Function.update_of_ne hne _ _
  rw [hr]

/-! ## Lists that cannot

    The base is loaded, and a register after it faults. The guest memory is that of the host,
    the base is low, and the memory has another base there. -/

/-- A guest whose memory is where it says. -/
def plain_target : arm_target := ⟨0, 0⟩

/-- The start address, as a word. -/
def ldm_start (insn : BitVec 32) (bitNb : Nat) (b : BitVec 32) : BitVec 32 :=
  if insn.getLsbD 24 then
    if insn.getLsbD 23 then b + 4#32 else b - 4#32 * BitVec.ofNat 32 bitNb
  else
    if insn.getLsbD 23 then b else b - 4#32 * (BitVec.ofNat 32 bitNb - 1#32)

theorem ldm_start_address_eq (insn : BitVec 32) (bitNb : Nat) (b : BitVec 32) :
    ldm_start_address insn bitNb (b.setWidth 64) = (ldm_start insn bitNb b).setWidth 64 := by
  unfold ldm_start_address ldm_start mk_32
  cases insn.getLsbD 24 <;> cases insn.getLsbD 23 <;>
    simp only [Bool.false_eq_true, if_false, if_true, add_32, sub_32]

theorem step_address (start : BitVec 32) (i offset : Nat) :
    (register_step plain_target (start.setWidth 64) i offset).address =
      (start + BitVec.ofNat 32 offset).setWidth 64 := by
  unfold register_step mk_address mk_32 plain_target
  simp

theorem ldm_start_low (insn : BitVec 32) {n : Nat} (hpos : 0 < n) (hn : n ≤ 16) :
    ∃ d, d + 64 ≤ 0x1800 ∧ ∀ o < 64,
      ((ldm_start insn n 0x1000#32 + BitVec.ofNat 32 o).setWidth 64).toNat = d + o := by
  unfold ldm_start
  cases insn.getLsbD 24 <;> cases insn.getLsbD 23
  · refine ⟨0x1000 - 4 * (n - 1), by omega, ?_⟩
    intro o ho
    simp
    omega
  · refine ⟨0x1000, by omega, ?_⟩
    intro o ho
    simp
    omega
  · refine ⟨0x1000 - 4 * n, by omega, ?_⟩
    intro o ho
    simp
    omega
  · refine ⟨0x1004, by omega, ?_⟩
    intro o ho
    simp
    omega

theorem ldm_start_high (insn : BitVec 32) {n o : Nat} (hpos : 0 < n) (hn : n ≤ 16) (ho : o < 64)
    {b : BitVec 32} (hb : 0x2000 ≤ b.toNat) (hb' : b.toNat < 2 ^ 31) :
    0x1800 ≤ ((ldm_start insn n b + BitVec.ofNat 32 o).setWidth 64).toNat := by
  unfold ldm_start
  cases insn.getLsbD 24 <;> cases insn.getLsbD 23
  all_goals
    simp only [Bool.false_eq_true, if_false, if_true, BitVec.toNat_setWidth, BitVec.toNat_add,
      BitVec.toNat_sub, BitVec.toNat_mul, BitVec.toNat_ofNat]
    omega

/-- What a register is loaded with. -/
def loaded (e : host_env) (m : Mem) (address : BitVec 64) : BitVec 32 :=
  (merge .w32 (e.left address.toNat .w32) (BitVec.ofNat 64 (m.load address.toNat 4))).setWidth 32

theorem loaded_low (e : host_env) {address : BitVec 64} (h : address.toNat + 4 ≤ 0x1800) :
    loaded e low_memory address = 0x10101010#32 := by
  unfold loaded
  rw [load_low h]
  simp only [merge]
  decide +kernel

theorem loaded_high (e : host_env) {address : BitVec 64} (h : 0x1800 ≤ address.toNat) :
    loaded e low_memory address = 0#32 := by
  unfold loaded
  rw [load_high h]
  simp only [merge]
  decide +kernel

/-- A step of a list. -/
theorem mem_register_steps {context : arm_target} {start_address : BitVec 64} {is : List Nat}
    {offset : Nat} {y : load_step (BitVec 4) (BitVec 32)}
    (h : y ∈ register_steps context start_address is offset) :
    ∃ i o, offset ≤ o ∧ o < offset + 4 * is.length ∧ y = register_step context start_address i o := by
  induction is generalizing offset with
  | nil => cases h
  | cons i is ih =>
    rcases List.mem_cons.mp h with rfl | hrest
    · exact ⟨i, offset, by omega, by simp, rfl⟩
    · obtain ⟨j, o, hle, hlt, rfl⟩ := ih hrest
      refine ⟨j, o, by omega, ?_, rfl⟩
      rw [List.length_cons]
      omega

section failing

variable {insn : BitVec 32} {js ks : List Nat} {i k : Nat}
  (hregisters : registers (insn.extractLsb' 0 16) = js ++ i :: k :: ks)
  (hrn : BitVec.ofNat 4 i = insn.extractLsb' 16 4)
include hregisters

theorem bitNb_eq : (List.range 16).countP (insn.extractLsb' 0 16).getLsbD = js.length + (ks.length + 2) := by
  rw [List.countP_eq_length_filter]
  change (registers (insn.extractLsb' 0 16)).length = _
  rw [hregisters]
  simp

theorem bitNb_le : js.length + (ks.length + 2) ≤ 16 := by
  rw [← bitNb_eq hregisters]
  exact List.countP_le_length.trans (by simp)

/-- The registers before the base and the base, then the others. -/
theorem ldm_steps_eq (b : BitVec 32) : ldm_steps plain_target insn (b.setWidth 64) =
    register_steps plain_target
        ((ldm_start insn (js.length + (ks.length + 2)) b).setWidth 64) (js ++ [i]) 0 ++
      register_step plain_target ((ldm_start insn (js.length + (ks.length + 2)) b).setWidth 64) k
          (4 * (js.length + 1)) ::
        register_steps plain_target ((ldm_start insn (js.length + (ks.length + 2)) b).setWidth 64) ks
          (4 * (js.length + 1) + 4) := by
  unfold ldm_steps
  rw [bitNb_eq hregisters, ldm_start_address_eq, hregisters,
    show js ++ i :: k :: ks = (js ++ [i]) ++ k :: ks by simp, register_steps_append]
  simp [register_steps]

/-- Where the base is loaded from. -/
def base_address (insn : BitVec 32) (n position : Nat) (b : BitVec 32) : BitVec 64 :=
  (ldm_start insn n b + BitVec.ofNat 32 (4 * position)).setWidth 64

omit hregisters in
/-- The base, once it is loaded. -/
theorem base_written (e : host_env) (m : Mem) (n : Nat) (b : BitVec 32) (c : arm_registers) :
    (puts put (written e m (register_steps plain_target ((ldm_start insn n b).setWidth 64)
      (js ++ [i]) 0)) c).r (BitVec.ofNat 4 i) = loaded e m (base_address insn n js.length b) := by
  rw [register_steps_append, written_append, puts_append, Nat.zero_add]
  have hlast : ∀ c', puts put (written e m (register_steps plain_target
      ((ldm_start insn n b).setWidth 64) [i] (4 * js.length))) c' =
      put (BitVec.ofNat 4 i) (loaded e m (base_address insn n js.length b)) c' := by
    intro c'
    rw [base_address, ← step_address _ i]
    rfl
  rw [hlast]
  exact Function.update_self _ _ _

/-- The base at the end. -/
def ldm_final (insn : BitVec 32) (e : host_env) (m : Mem) (n position : Nat) (b : BitVec 32) :
    BitVec 32 :=
  if insn.getLsbD 21 then
    if insn.getLsbD 23 then b + 4#32 * BitVec.ofNat 32 n else b - 4#32 * BitVec.ofNat 32 n
  else loaded e m (base_address insn n position b)

/-- The registers after the base are other ones. -/
theorem after_base (st : BitVec 64) (o : Nat) (e : host_env) (m : Mem) (c : arm_registers) :
    (puts put (written e m (register_steps plain_target st (k :: ks) o)) c).r (BitVec.ofNat 4 i) =
      c.r (BitVec.ofNat 4 i) := by
  have hother : ∀ w ∈ written e m (register_steps plain_target st (k :: ks) o), ∀ c : arm_registers,
      (put w.1 w.2 c).r (BitVec.ofNat 4 i) = c.r (BitVec.ofNat 4 i) := by
    intro w hw c'
    obtain ⟨j, hj, hwj⟩ := mem_written hw
    have hpairwise := registers_lt (insn.extractLsb' 0 16)
    rw [hregisters] at hpairwise
    have hlt : i < j := (List.pairwise_cons.mp (List.pairwise_append.mp hpairwise).2.1).1 j hj
    have hj16 : j < 16 := by
      have hmem : j ∈ registers (insn.extractLsb' 0 16) := by
        rw [hregisters]
        exact List.mem_append_right _ (List.mem_cons_of_mem _ hj)
      exact (mem_registers.mp hmem).1
    have hne : BitVec.ofNat 4 i ≠ w.1 := by
      rw [hwj]
      intro heq
      have hnat := congrArg BitVec.toNat heq
      rw [BitVec.toNat_ofNat, BitVec.toNat_ofNat] at hnat
      omega
    exact Function.update_of_ne hne _ _
  exact puts_frame (fun c : arm_registers => c.r (BitVec.ofNat 4 i)) hother c

include hrn

theorem ldm_final_eq (e : host_env) (m : Mem) (b : BitVec 32) (c : arm_registers) :
    (puts put (written e m (ldm_steps plain_target insn (b.setWidth 64)) ++
      ldm_back insn (b.setWidth 64)) c).r (insn.extractLsb' 16 4) =
        ldm_final insn e m (js.length + (ks.length + 2)) js.length b := by
  rw [puts_append]
  unfold ldm_back ldm_final
  rw [bitNb_eq hregisters]
  cases insn.getLsbD 21
  · simp only [Bool.false_eq_true, if_false, puts_nil]
    rw [ldm_steps_eq hregisters, written_append, puts_append, ← hrn]
    exact (after_base hregisters _ _ e m _).trans (base_written e m _ b c)
  · simp only [if_true, puts_cons, puts_nil, mk_32]
    refine (Function.update_self _ _ _).trans ?_
    cases insn.getLsbD 23
    · simp only [Bool.false_eq_true, if_false, sub_32]
      simp
    · simp only [if_true, add_32]
      simp

omit hrn in
/-- The two bases lead to different ends. -/
theorem ldm_final_ne (e : host_env) :
    ldm_final insn e low_memory (js.length + (ks.length + 2)) js.length 0x10101010#32 ≠
      ldm_final insn e low_memory (js.length + (ks.length + 2)) js.length 0x1000#32 := by
  have hle := bitNb_le hregisters
  unfold ldm_final base_address
  cases insn.getLsbD 21
  · obtain ⟨d, hd, haddress⟩ := ldm_start_low insn (show 0 < js.length + (ks.length + 2) by omega) hle
    have hlow := haddress (4 * js.length) (by omega)
    have hhigh := ldm_start_high insn (show 0 < js.length + (ks.length + 2) by omega) hle
      (show 4 * js.length < 64 by omega) (b := 0x10101010#32) (by decide) (by decide)
    simp only [Bool.false_eq_true, if_false]
    rw [loaded_high e hhigh, loaded_low e (by rw [hlow]; omega)]
    decide
  · simp only [if_true]
    cases insn.getLsbD 23
    · simp only [Bool.false_eq_true, if_false]
      intro heq
      exact absurd (sub_left_injective heq) (by decide)
    · simp only [if_true]
      intro heq
      exact absurd (add_right_cancel heq) (by decide)

/-- A fault after the base has overwritten it. -/
theorem not_restartable_ldm (hs : insn.getLsbD 22 = false) (hl : insn.getLsbD 20 = true)
    (h15 : insn.extractLsb' 16 4 ≠ 15) : ¬ Restartable (dis_ldm_stm plain_target insn) := by
  have hle := bitNb_le hregisters
  obtain ⟨d, hd, haddress⟩ := ldm_start_low insn (show 0 < js.length + (ks.length + 2) by omega) hle
  let e : host_env := ⟨fun a _ => decide (a ≠ d + 4 * (js.length + 1)), fun _ _ => 0⟩
  let s : machine arm_registers := ⟨⟨fun _ => 0x1000#32, 0, 0⟩, low_memory⟩
  have hbase : ∀ c : arm_registers, ldm_base plain_target (insn.extractLsb' 16 4) c =
      (c.r (insn.extractLsb' 16 4)).setWidth 64 := fun c => if_neg h15
  have hlow : (base_address insn (js.length + (ks.length + 2)) js.length 0x1000#32).toNat =
      d + 4 * js.length := haddress _ (by omega)
  rw [dis_ldm_eq plain_target insn hs hl]
  refine not_restartable_multi_load e s
    ((congrArg _ (hbase s.context)).trans (ldm_steps_eq hregisters 0x1000#32)) ?_ ?_ rfl ?_
  · intro y hy
    obtain ⟨j, o, -, ho, rfl⟩ := mem_register_steps hy
    rw [step_address]
    have hlength : (js ++ [i]).length = js.length + 1 := by simp
    have hat := haddress o (by omega)
    exact decide_eq_true (by rw [hat]; omega)
  · rw [step_address]
    have hat := haddress (4 * (js.length + 1)) (by omega)
    exact decide_eq_false (by rw [hat]; omega)
  · -- the base that the second run starts from
    have hloaded : (puts put (written e s.mem (register_steps plain_target
        ((ldm_start insn (js.length + (ks.length + 2)) 0x1000#32).setWidth 64) (js ++ [i]) 0))
          s.context).r (insn.extractLsb' 16 4) = 0x10101010#32 := by
      rw [← hrn, base_written]
      exact loaded_low e (by rw [hlow]; omega)
    intro heq
    have hr := congrArg (fun c : arm_registers => c.r (insn.extractLsb' 16 4)) heq
    simp only [hbase, hloaded, ldm_final_eq hregisters hrn] at hr
    exact ldm_final_ne hregisters e hr

end failing

/-- LDM can be started again unless its base is loaded before another register. -/
theorem restartable_ldm_iff {insn : BitVec 32} (hs : insn.getLsbD 22 = false)
    (hl : insn.getLsbD 20 = true) :
    (∀ context, Restartable (dis_ldm_stm context insn)) ↔ ¬ BaseOverwritten insn := by
  constructor
  · intro h hover
    obtain ⟨h15, hrn, j, hj, hlt, hbit⟩ := hover
    have hmem : (insn.extractLsb' 16 4).toNat ∈ registers (insn.extractLsb' 0 16) :=
      mem_registers.mpr ⟨(insn.extractLsb' 16 4).isLt, hrn⟩
    obtain ⟨js, rest, hsplit⟩ := List.append_of_mem hmem
    cases rest with
    | nil =>
      -- the other register would be before the base
      have hpairwise := registers_lt (insn.extractLsb' 0 16)
      have hother : j ∈ registers (insn.extractLsb' 0 16) := mem_registers.mpr ⟨hj, hbit⟩
      rw [hsplit] at hpairwise hother
      rcases List.mem_append.mp hother with hbefore | hlast
      · have hlt' := (List.pairwise_append.mp hpairwise).2.2 j hbefore _ List.mem_cons_self
        omega
      · have heq := List.mem_singleton.mp hlast
        omega
    | cons k ks =>
      refine not_restartable_ldm hsplit ?_ hs hl ?_ (h plain_target)
      · rw [BitVec.ofNat_toNat, BitVec.setWidth_eq]
      · intro heq
        rw [heq] at h15
        exact h15 rfl
  · intro h context
    exact restartable_ldm context hs hl h

end Umeq.Arm
