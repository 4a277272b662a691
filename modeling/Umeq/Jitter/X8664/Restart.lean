import Umeq.Jitter.X8664.Execute
import Umeq.Lib.Places

/-! # Instructions that are started again

    An access that faults ends a guest instruction in the middle. Once the fault is
    repaired, the instruction runs again from its start, with the registers as the
    fault has left them.

    A load of several registers reads its base, loads and writes register after
    register, and then writes its base back. It can be started again when no register
    that is written before the last access feeds the addresses.
-/

namespace Umeq.Jitter.X86_64.Guest

open Bytes Words X86 Places

variable {C : Type}

/-- The same host, where every access is possible. -/
def host_env.repaired (e : host_env) : host_env := { e with accessible := fun _ _ => true }

/-- The registers of the guest at the end of an instruction. -/
def outcome.registers {α : Type} : outcome C α → Option C
  | .done _ s => some s.context
  | .fault _ => none
  | .illegal => none

/-- Wherever an access faults, a second run from there ends with the registers of a run without a
    fault. -/
def Restartable {α : Type} (p : Run C α) : Prop :=
  ∀ e s s', p e s = .fault s' → (p e.repaired s').registers = (p e.repaired s).registers

/-! ## Loads -/

/-- A load, and where its value goes to. -/
structure load_step (L V : Type) where
  width : Words.width
  address : BitVec 64
  writes : BitVec 64 → List (L × V)

section loads

variable {L V β : Type} (put : L → V → C → C)

def loads : List (load_step L V) → Run C Unit
  | [] => pure ()
  | x :: xs => do
    let value ← add_load x.width x.address
    add_write_context (puts put (x.writes value))
    loads xs

/-- A load of several registers: the base, the loads and the write back. -/
def multi_load (base : C → β) (steps : β → List (load_step L V)) (back : β → List (L × V)) :
    Run C Unit := do
  let b ← add_read_context base
  loads put (steps b)
  add_write_context (puts put (back b))

theorem loads_append (xs ys : List (load_step L V)) :
    loads put (xs ++ ys) = loads put xs >>= fun _ => loads put ys := by
  induction xs with
  | nil => rfl
  | cons x xs ih => simp only [List.cons_append, loads, ih, bind_assoc]

variable {put} (e : host_env) (s : machine C)

/-- What a load brings. -/
def load_step.value (m : Mem) (x : load_step L V) : BitVec 64 :=
  merge x.width (e.left x.address.toNat x.width)
    (BitVec.ofNat 64 (m.load x.address.toNat x.width.bytes))

/-- All that the loads write. -/
def written (m : Mem) (xs : List (load_step L V)) : List (L × V) :=
  xs.flatMap fun x => x.writes (x.value e m)

theorem written_append (m : Mem) (xs ys : List (load_step L V)) :
    written e m (xs ++ ys) = written e m xs ++ written e m ys := List.flatMap_append

/-- The loads without a fault. -/
theorem loads_done {xs : List (load_step L V)}
    (h : ∀ x ∈ xs, e.accessible x.address.toNat x.width = true) :
    loads put xs e s = .done () { s with context := puts put (written e s.mem xs) s.context } := by
  induction xs generalizing s with
  | nil => rfl
  | cons x xs ih =>
    have hx := h x List.mem_cons_self
    have hrest := ih { s with context := puts put (x.writes (x.value e s.mem)) s.context }
      fun y hy => h y (List.mem_cons_of_mem _ hy)
    simp only [loads, run_bind, add_load, hx, if_true, run_write]
    refine hrest.trans ?_
    rw [← puts_append]
    rfl

/-- A fault comes after the writes of the loads before it. -/
theorem loads_fault_at {pre post : List (load_step L V)} {x : load_step L V}
    (hpre : ∀ y ∈ pre, e.accessible y.address.toNat y.width = true)
    (hx : e.accessible x.address.toNat x.width = false) :
    loads put (pre ++ x :: post) e s =
      .fault { s with context := puts put (written e s.mem pre) s.context } := by
  induction pre generalizing s with
  | nil => simp [loads, add_load, hx, written]
  | cons y pre ih =>
    have hy := hpre y List.mem_cons_self
    have hrest := ih { s with context := puts put (y.writes (y.value e s.mem)) s.context }
      fun z hz => hpre z (List.mem_cons_of_mem _ hz)
    simp only [List.cons_append, loads, run_bind, add_load, hy, if_true, run_write]
    refine hrest.trans ?_
    rw [← puts_append]
    rfl

/-- Every fault is one of these. -/
theorem loads_fault {xs : List (load_step L V)} {s' : machine C} (h : loads put xs e s = .fault s') :
    ∃ pre x post, xs = pre ++ x :: post ∧
      s' = { s with context := puts put (written e s.mem pre) s.context } := by
  induction xs generalizing s with
  | nil => cases h
  | cons x xs ih =>
    by_cases hx : e.accessible x.address.toNat x.width = true
    · simp only [loads, run_bind, add_load, hx, if_true, run_write] at h
      obtain ⟨pre, y, post, rfl, rfl⟩ := ih _ h
      refine ⟨x :: pre, y, post, rfl, ?_⟩
      rw [show written e s.mem (x :: pre) = x.writes (x.value e s.mem) ++ written e s.mem pre from rfl,
        puts_append]
      rfl
    · simp only [loads, run_bind, add_load, hx] at h
      cases h
      exact ⟨[], x, xs, rfl, rfl⟩

variable {base : C → β} {steps : β → List (load_step L V)} {back : β → List (L × V)}

theorem multi_load_done
    (h : ∀ x ∈ steps (base s.context), e.accessible x.address.toNat x.width = true) :
    multi_load put base steps back e s =
      .done () { s with
        context := puts put (written e s.mem (steps (base s.context)) ++ back (base s.context))
          s.context } := by
  simp only [multi_load, run_bind, run_read, loads_done e s h, run_write]
  rw [puts_append]

theorem multi_load_repaired : multi_load put base steps back e.repaired s =
    .done () { s with
      context := puts put (written e s.mem (steps (base s.context)) ++ back (base s.context))
        s.context } := multi_load_done e.repaired s fun _ _ => rfl

/-- No register that is written before the last load is looked at for the base. -/
theorem restartable_multi_load (hput : Lawful put)
    (hbase : ∀ b pre x post, steps b = pre ++ x :: post → ∀ e m, ∀ w ∈ written e m pre,
      ∀ c, base (put w.1 w.2 c) = base c) :
    Restartable (multi_load put base steps back) := by
  intro e s s' hfault
  simp only [multi_load, run_bind, run_read] at hfault
  cases hloads : loads put (steps (base s.context)) e s with
  | done a t => simp [hloads] at hfault
  | illegal => simp [hloads] at hfault
  | fault t =>
    rw [hloads] at hfault
    cases hfault
    obtain ⟨pre, x, post, hsteps, rfl⟩ := loads_fault e s hloads
    -- the base is as before, so that the second run has the loads of the first
    have hsame : base (puts put (written e s.mem pre) s.context) = base s.context :=
      puts_frame base (hbase _ pre x post hsteps e s.mem) _
    have hpart : ∀ w ∈ written e s.mem pre, w ∈ written e s.mem (steps (base s.context)) := by
      intro w hw
      rw [hsteps, written_append]
      exact List.mem_append_left _ hw
    have hagain := puts_again hput hpart s.context
    rw [multi_load_repaired, multi_load_repaired]
    simp only [outcome.registers, hsame]
    rw [puts_append, puts_append, hagain]

/-- A second run that ends with other registers. -/
theorem not_restartable_multi_load {pre post : List (load_step L V)} {x : load_step L V} {c' : C}
    (hsteps : steps (base s.context) = pre ++ x :: post)
    (hpre : ∀ y ∈ pre, e.accessible y.address.toNat y.width = true)
    (hx : e.accessible x.address.toNat x.width = false)
    (hc' : puts put (written e s.mem pre) s.context = c')
    (hdiff : puts put (written e s.mem (steps (base c')) ++ back (base c')) c' ≠
      puts put (written e s.mem (steps (base s.context)) ++ back (base s.context)) s.context) :
    ¬ Restartable (multi_load put base steps back) := by
  intro h
  have hfault : multi_load put base steps back e s = .fault { s with context := c' } := by
    simp only [multi_load, run_bind, run_read, hsteps, loads_fault_at e s hpre hx, hc']
  have hsame := h e s _ hfault
  rw [multi_load_repaired, multi_load_repaired] at hsame
  exact hdiff (Option.some.inj hsame)

end loads

/-! ## A memory to run in

    Low addresses hold one byte everywhere, the others zero: what is loaded from a low address
    is not one. -/

def low_memory : Mem := fun a => if a < 0x1800 then 0x10 else 0

theorem load_low {a n : Nat} (h : a + n ≤ 0x1800) :
    low_memory.load a n = ofLE (List.replicate n 0x10) := by
  unfold Mem.load Mem.read
  rw [List.map_eq_replicate_iff.mpr, List.length_range]
  intro i hi
  have hlt := List.mem_range.mp hi
  exact if_pos (by omega)

theorem load_high {a n : Nat} (h : 0x1800 ≤ a) : low_memory.load a n = ofLE (List.replicate n 0) := by
  unfold Mem.load Mem.read
  rw [List.map_eq_replicate_iff.mpr, List.length_range]
  intro i _
  exact if_neg (by omega)

end Umeq.Jitter.X86_64.Guest
