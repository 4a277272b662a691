import Umeq.Jitter.FindInsn
import Umeq.Jitter.X8664.Twin
import Umeq.Jitter.I386.Twin

/-! # The code of a block, made a second time

    `findInsn` makes the code of a block again, with a marker before each guest instruction and
    with more guest instructions after those of the block. Here are two programs that start with
    the same guest instructions, the second with markers, and each goes on in its own way.

    * `SameCode`: the second has the code of the guest instructions of the first, at the same
      offsets, and its markers are where the code of each begins.
    * `Parallel`: what is needed of a back end. `Parallel.sameCode` is then by induction over
      the guest instructions, and `x86_64_parallel` and `i386_parallel` say that both back ends
      have it.
-/

namespace Umeq.Jitter

open X86_64 (x86Instruction)

/-! ## Back ends -/

/-- A back end as `jitCode` and `findInsn` use it. The code of an instruction depends on what is
    in its patchable slot. -/
structure back_end where
  state : Type
  places : Type
  reset : state
  insns : state → List x86Instruction
  lower : (Nat → Option Nat) → state → irInstruction → state
  allocateRegisters : state → Option places
  emit : state → places → List UInt8 → x86Instruction → List UInt8

def x86_64 : back_end where
  state := X86_64.inter
  places := LinearScan.places Nat
  reset := X86_64.reset
  insns := X86_64.inter.insns
  lower := X86_64.allocateInstruction
  allocateRegisters := X86_64.allocateRegisters
  emit _ a slot insn := (X86_64.gen a.index slot insn).getD []

/-- There is no slot in its code. -/
def i386 (helper : I386.shift_helpers) : back_end where
  state := I386.inter
  places := LinearScan.places (Nat × Bool)
  reset := I386.reset
  insns i := i.insns
  lower := I386.allocateInstruction
  allocateRegisters := I386.allocateRegisters
  emit i a _ insn := (I386.gen helper (I386.registers i a) insn).getD []

namespace back_end

variable (B : back_end)

def allocateInstructions (j : jitter) : B.state := j.insns.foldl (B.lower j.lastReadIndex) B.reset

/-- The guest instructions of a program with markers, lowered. -/
def marked_guests (j : jitter) (gs : List (guest irInstruction)) : List (guest x86Instruction) :=
  lowered_guests B.insns (B.lower j.lastReadIndex) B.reset gs

/-- Guest instructions without markers, with the instructions that the rounds of
    `allocateInstructions` add for each. -/
def plain_from (last : Nat → Option Nat) (s : B.state) :
    List (guest irInstruction) → List (guest x86Instruction)
  | [] => []
  | g :: gs =>
    let s' := g.insns.foldl (B.lower last) s
    ⟨g.value, (B.insns s').drop (B.insns s).length⟩ :: plain_from last s' gs

/-- The guest instructions of a program without markers, lowered. -/
def plain_guests (j : jitter) (gs : List (guest irInstruction)) : List (guest x86Instruction) :=
  B.plain_from j.lastReadIndex B.reset gs

end back_end

/-! ## The same code -/

/-- What patchable slots hold: eight bytes each. -/
def Slots (slots : Nat → List UInt8) : Prop := ∀ k, (slots k).length = 8

/-- Where the code of guest instruction `n` starts when there are no markers. -/
def plain_start (code : Nat → x86Instruction → List UInt8) (gs : List (guest x86Instruction))
    (n : Nat) : Nat :=
  size code 0 ((gs.take n).flatMap guest.insns)

/-- The markers of a program, with the offsets in its code at which they are. -/
def marker_offsets (code : Nat → x86Instruction → List UInt8) :
    Nat → Nat → List x86Instruction → List (Nat × BitVec 32)
  | _, _, [] => []
  | k, pos, .marker value :: insns => (pos, value) :: marker_offsets code (k + 1) pos insns
  | k, pos, insn :: insns => marker_offsets code (k + 1) (pos + (code k insn).length) insns

/-- The guest instructions `gs` of a program are the first ones of the program `insns'` with the
    guest instructions `gs'`. Whatever the slots hold, they have the same host instructions, at
    the same offsets, and the markers are where the code of each begins. -/
structure SameCode (emit emit' : List UInt8 → x86Instruction → List UInt8)
    (gs gs' : List (guest x86Instruction)) (insns' : List x86Instruction) : Prop where
  code : ∀ (n : Nat) (g : guest x86Instruction), gs[n]? = some g →
    ∃ g' : guest x86Instruction, gs'[n]? = some g' ∧
      ∀ slot, g'.insns.map (emit' slot) = g.insns.map (emit slot)
  starts : ∀ slots slots', Slots slots → Slots slots' → ∀ n < gs.length,
    guest_start (fun k => emit' (slots' k)) gs' n = plain_start (fun k => emit (slots k)) gs n
  markers : ∀ slots slots', Slots slots → Slots slots' → ∀ (n : Nat) g, gs[n]? = some g →
    (marker_offsets (fun k => emit' (slots' k)) 0 0 insns')[n]? =
      some (plain_start (fun k => emit (slots k)) gs n, g.value)

section layout

variable {code code' : Nat → x86Instruction → List UInt8} {ls : List (guest x86Instruction)}

theorem size_eq_sum {len : x86Instruction → Nat} {insns : List x86Instruction}
    (h : ∀ k, ∀ x ∈ insns, (code k x).length = len x) (k : Nat) :
    size code k insns = (insns.map len).sum := by
  induction insns generalizing k with
  | nil => rfl
  | cons x insns ih =>
    rw [size, h k x List.mem_cons_self, ih fun k y hy => h k y (List.mem_cons_of_mem _ hy),
      List.map_cons, List.sum_cons]

/-- The loop of the markers goes past instructions that are none. -/
theorem marker_offsets_skip {a b : List x86Instruction} (hplain : ∀ v, .marker v ∉ a) (k pos : Nat) :
    marker_offsets code k pos (a ++ b) =
      marker_offsets code (k + a.length) (pos + size code k a) b := by
  induction a generalizing k pos with
  | nil => rfl
  | cons x a ih =>
    have hcons : marker_offsets code k pos (x :: (a ++ b)) =
        marker_offsets code (k + 1) (pos + (code k x).length) (a ++ b) := by
      cases x with
      | marker v => exact absurd List.mem_cons_self (hplain v)
      | _ => rfl
    rw [List.cons_append, hcons, ih fun v hv => hplain v (List.mem_cons_of_mem _ hv), size,
      List.length_cons, Nat.add_assoc, Nat.add_assoc, Nat.add_comm 1]

theorem marker_offsets_guest (hmark : ∀ k v, code k (.marker v) = [])
    (hplain : ∀ g ∈ ls, ∀ v, .marker v ∉ g.insns) {n : Nat} {g : guest x86Instruction}
    (hg : ls[n]? = some g) (rest : List x86Instruction) (k pos : Nat) :
    (marker_offsets code k pos (ls.flatMap guest.marked ++ rest))[n]? =
      some (pos + size code k ((ls.take n).flatMap guest.marked), g.value) := by
  induction ls generalizing n k pos with
  | nil => cases hg
  | cons g' ls ih =>
    rw [List.flatMap_cons, guest.marked, List.cons_append, List.cons_append, marker_offsets,
      List.append_assoc, marker_offsets_skip (hplain g' List.mem_cons_self)]
    cases n with
    | zero =>
      obtain rfl := Option.some.inj hg
      rfl
    | succ n =>
      rw [List.getElem?_cons_succ, ih (fun g hmem => hplain g (List.mem_cons_of_mem _ hmem)) hg,
        List.take_succ_cons, List.flatMap_cons, size_append, guest.marked, size, hmark,
        List.length_nil, Nat.zero_add, List.length_cons, Nat.add_assoc, Nat.add_assoc,
        Nat.add_comm 1]

variable {emit emit' : List UInt8 → x86Instruction → List UInt8}

/-- Programs that have guest instructions `ls` in common. -/
theorem sameCode_of (hplain : ∀ g ∈ ls, ∀ v, .marker v ∉ g.insns)
    (hcode : ∀ g ∈ ls, ∀ x ∈ g.insns, ∀ slot, emit' slot x = emit slot x)
    (hmark : ∀ slot v, emit' slot (.marker v) = [])
    (hslot : ∀ slot slot' x, slot.length = slot'.length →
      (emit slot x).length = (emit slot' x).length)
    (more : List (guest x86Instruction)) (rest : List x86Instruction) :
    SameCode emit emit' ls (ls ++ more) (ls.flatMap guest.marked ++ rest) := by
  have hstart : ∀ slots slots', Slots slots → Slots slots' → ∀ n,
      size (fun k => emit' (slots' k)) 0 ((ls.take n).flatMap guest.marked) =
        plain_start (fun k => emit (slots k)) ls n := by
    intro slots slots' hslots hslots' n
    have hlen : ∀ k, ∀ x ∈ (ls.take n).flatMap guest.insns,
        (emit (slots k) x).length = (emit (slots 0) x).length :=
      fun k x _ => hslot _ _ x ((hslots k).trans (hslots 0).symm)
    have hmarked : ∀ gs ⊆ ls, ∀ k,
        size (fun k => emit' (slots' k)) k (gs.flatMap guest.marked) =
          ((gs.flatMap guest.insns).map fun x => (emit (slots 0) x).length).sum := by
      intro gs
      induction gs with
      | nil => exact fun _ k => rfl
      | cons g gs ih =>
        intro hgs k
        have hg : g ∈ ls := hgs List.mem_cons_self
        have hbody : ∀ k, ∀ x ∈ g.insns,
            (emit' (slots' k) x).length = (emit (slots 0) x).length := by
          intro k x hx
          rw [hcode g hg x hx]
          exact hslot _ _ x ((hslots' k).trans (hslots 0).symm)
        rw [List.flatMap_cons, guest.marked, List.cons_append, size, hmark, size_append,
          size_eq_sum hbody, ih fun g hmem => hgs (List.mem_cons_of_mem _ hmem), List.flatMap_cons,
          List.map_append, List.sum_append]
        exact Nat.zero_add _
    rw [plain_start, size_eq_sum hlen]
    exact hmarked _ (List.take_subset n ls) 0
  refine ⟨?_, ?_, ?_⟩
  · intro n g hg
    have hmem := List.mem_of_getElem? hg
    refine ⟨g, ?_, ?_⟩
    · rw [List.getElem?_append_left (List.getElem?_eq_some_iff.mp hg).1, hg]
    · intro slot
      exact List.map_congr_left fun x hx => hcode g hmem x hx slot
  · intro slots slots' hslots hslots' n hn
    rw [← hstart slots slots' hslots hslots', guest_start,
      List.take_append_of_le_length (Nat.le_of_lt hn)]
  · intro slots slots' hslots hslots' n g hg
    rw [marker_offsets_guest (fun k v => hmark _ v) hplain hg, hstart slots slots' hslots hslots',
      Nat.zero_add]

end layout

/-! ## Programs that start with the same guest instructions -/

def guest.code (marked : Bool) (g : guest irInstruction) : List irInstruction :=
  if marked then g.ir else g.insns

/-- A program that starts with guest instructions whose registers are below `base`. What comes
    after has registers of its own. -/
structure Starts (base : Nat) (marked : Bool) (gs : List (guest irInstruction)) (j : jitter) :
    Prop where
  insns : ∃ rest, j.insns = gs.flatMap (guest.code marked) ++ rest ∧
    ∀ insn ∈ rest, ∀ r, irRegisters insn r → base ≤ r
  plain : ∀ g ∈ gs, ∀ v, .marker v ∉ g.insns
  below : ∀ g ∈ gs, ∀ insn ∈ g.insns, ∀ r, irRegisters insn r → r < base
  reads : Reads j

/-- Whether a register of the guest instructions is read depends on them alone. -/
theorem Starts.last_iff {base : Nat} {marked : Bool} {gs : List (guest irInstruction)} {j : jitter}
    (h : Starts base marked gs j) {r : Nat} (hr : r < base) : j.lastReadIndex r = none ↔
      ∀ g ∈ gs, ∀ insn ∈ g.insns, r ∉ insn.reads.map irRegister.index := by
  obtain ⟨rest, hinsns, habove⟩ := h.insns
  rw [h.reads r, hinsns]
  constructor
  · intro hnot g hg insn hinsn
    apply hnot insn
    apply List.mem_append_left
    apply List.mem_flatMap.mpr
    refine ⟨g, hg, ?_⟩
    cases marked with
    | false => exact hinsn
    | true => exact List.mem_cons_of_mem _ hinsn
  · intro hnot insn hmem
    obtain hmem | hmem := List.mem_append.mp hmem
    · obtain ⟨g, hg, hinsn⟩ := List.mem_flatMap.mp hmem
      cases marked with
      | false => exact hnot g hg insn hinsn
      | true =>
        obtain rfl | hinsn := List.mem_cons.mp hinsn
        · exact List.not_mem_nil
        · exact hnot g hg insn hinsn
    · intro hread
      obtain ⟨q, hq, rfl⟩ := List.mem_map.mp hread
      exact absurd (habove insn hmem _ (irRegisters_read hq)) (Nat.not_le_of_lt hr)

/-- What is needed of a back end. `Along` is the relation of a state of the first program to one
    of the second, in which there are markers too; `Grown` relates a state to a later one, when
    the registers in between are not below `base`. -/
structure Parallel (B : back_end) (regIndex : B.state → Nat)
    (Along Grown : Nat → B.state → B.state → Prop) : Prop where
  reset : B.insns B.reset = []
  start : ∀ base, Along base B.reset B.reset
  round : ∀ {base i i' insn} (last last' : Nat → Option Nat), Along base i i' → (∀ v, insn ≠ .marker v) →
    (∀ r, irRegisters insn r → r < base) →
    (∀ d, insn.dst = some d → (last d.index = none ↔ last' d.index = none)) →
    Along base (B.lower last i insn) (B.lower last' i' insn) ∧
      regIndex i ≤ regIndex (B.lower last i insn) ∧
      ∃ xs, B.insns (B.lower last i insn) = B.insns i ++ xs ∧
        B.insns (B.lower last' i' insn) = B.insns i' ++ xs ∧
        ∀ x ∈ xs, x.isMarker = false ∧ ∀ v ∈ x.regs, v < regIndex (B.lower last i insn)
  marker : ∀ {base i i'} (last' : Nat → Option Nat) (v : BitVec 32), Along base i i' →
    Along base i (B.lower last' i' (.marker v)) ∧
      B.insns (B.lower last' i' (.marker v)) = B.insns i' ++ [.marker v]
  grown : ∀ {base i i'}, Along base i i' → Grown base i i ∧ Grown base i' i'
  grow : ∀ {base i s insn last}, Grown base i s → (∀ r, irRegisters insn r → base ≤ r) →
    Grown base i (B.lower last s insn)
  later : ∀ {base i s}, Grown base i s → ∃ xs, B.insns s = B.insns i ++ xs
  places : ∀ {base i i' s s' a a'}, Along base i i' → Grown base i s → Grown base i' s' →
    B.allocateRegisters s = some a → B.allocateRegisters s' = some a' →
    ∀ x : x86Instruction, (∀ v ∈ x.regs, v < regIndex i) → ∀ slot,
      B.emit s' a' slot x = B.emit s a slot x
  marker_code : ∀ s a slot v, B.emit s a slot (.marker v) = []
  slot_length : ∀ s a slot slot' x, slot.length = slot'.length →
    (B.emit s a slot x).length = (B.emit s a slot' x).length

section parallel

variable {B : back_end} {regIndex : B.state → Nat} {Along Grown : Nat → B.state → B.state → Prop}
  {base : Nat} {i i' s : B.state} {last last' : Nat → Option Nat}

/-- The instructions of one guest instruction. -/
theorem Parallel.body (h : Parallel B regIndex Along Grown) {insns : List irInstruction}
    (halong : Along base i i') (hplain : ∀ v, .marker v ∉ insns)
    (hbelow : ∀ insn ∈ insns, ∀ r, irRegisters insn r → r < base)
    (hlast : ∀ r < base, last r = none ↔ last' r = none) :
    Along base (insns.foldl (B.lower last) i) (insns.foldl (B.lower last') i') ∧
      regIndex i ≤ regIndex (insns.foldl (B.lower last) i) ∧
      ∃ xs, B.insns (insns.foldl (B.lower last) i) = B.insns i ++ xs ∧
        B.insns (insns.foldl (B.lower last') i') = B.insns i' ++ xs ∧
        ∀ x ∈ xs, x.isMarker = false ∧
          ∀ v ∈ x.regs, v < regIndex (insns.foldl (B.lower last) i) := by
  induction insns generalizing i i' with
  | nil => exact ⟨halong, Nat.le_refl _, [], by simp⟩
  | cons insn insns ih =>
    have hfirst := hbelow insn List.mem_cons_self
    obtain ⟨halong₁, hle₁, xs, hxs, hxs', hregs⟩ := h.round last last' halong
      (fun v he => hplain v (he ▸ List.mem_cons_self)) hfirst
      (fun d hd => hlast _ (hfirst _ (irRegisters_dst hd)))
    obtain ⟨halong₂, hle₂, ys, hys, hys', hregs'⟩ := ih halong₁
      (fun v hv => hplain v (List.mem_cons_of_mem _ hv))
      (fun insn hmem => hbelow insn (List.mem_cons_of_mem _ hmem))
    refine ⟨halong₂, Nat.le_trans hle₁ hle₂, xs ++ ys, ?_, ?_, ?_⟩
    · rw [List.foldl_cons, hys, hxs, List.append_assoc]
    · rw [List.foldl_cons, hys', hxs', List.append_assoc]
    · intro x hx
      obtain hx | hx := List.mem_append.mp hx
      · exact ⟨(hregs x hx).1, fun v hv => Nat.lt_of_lt_of_le ((hregs x hx).2 v hv) hle₂⟩
      · exact hregs' x hx

/-- The guest instructions, one after the other. -/
theorem Parallel.guests (h : Parallel B regIndex Along Grown) {gs : List (guest irInstruction)}
    (halong : Along base i i') (hplain : ∀ g ∈ gs, ∀ v, .marker v ∉ g.insns)
    (hbelow : ∀ g ∈ gs, ∀ insn ∈ g.insns, ∀ r, irRegisters insn r → r < base)
    (hlast : ∀ r < base, last r = none ↔ last' r = none) :
    Along base ((gs.flatMap guest.insns).foldl (B.lower last) i)
        ((gs.flatMap guest.ir).foldl (B.lower last') i') ∧
      regIndex i ≤ regIndex ((gs.flatMap guest.insns).foldl (B.lower last) i) ∧
      lowered_guests B.insns (B.lower last') i' gs = B.plain_from last i gs ∧
      B.insns ((gs.flatMap guest.ir).foldl (B.lower last') i') =
        B.insns i' ++ (B.plain_from last i gs).flatMap guest.marked ∧
      ∀ g ∈ B.plain_from last i gs, ∀ x ∈ g.insns, x.isMarker = false ∧
        ∀ v ∈ x.regs, v < regIndex ((gs.flatMap guest.insns).foldl (B.lower last) i) := by
  induction gs generalizing i i' with
  | nil =>
    refine ⟨halong, Nat.le_refl _, rfl, (List.append_nil _).symm, ?_⟩
    intro g hg
    cases hg
  | cons g gs ih =>
    obtain ⟨halong₀, hinsns₀⟩ := h.marker last' g.value halong
    obtain ⟨halong₁, hle₁, xs, hxs, hxs', hregs⟩ := h.body halong₀ (hplain g List.mem_cons_self)
      (hbelow g List.mem_cons_self) hlast
    obtain ⟨halong₂, hle₂, hguests, hinsns, hregs'⟩ := ih halong₁
      (fun g hg => hplain g (List.mem_cons_of_mem _ hg))
      (fun g hg => hbelow g (List.mem_cons_of_mem _ hg))
    have hdrop : (B.insns (g.insns.foldl (B.lower last) i)).drop (B.insns i).length = xs := by
      rw [hxs, List.drop_left]
    have hdrop' : (B.insns (g.insns.foldl (B.lower last') (B.lower last' i' (.marker g.value)))).drop
        (B.insns (B.lower last' i' (.marker g.value))).length = xs := by
      rw [hxs', List.drop_left]
    simp only [List.flatMap_cons, List.foldl_append]
    refine ⟨halong₂, Nat.le_trans hle₁ hle₂, ?_, ?_, ?_⟩
    · rw [lowered_guests, back_end.plain_from, hdrop, hdrop', hguests]
    · rw [guest.ir, List.foldl_cons, hinsns, hxs', hinsns₀, back_end.plain_from, hdrop,
        List.flatMap_cons, guest.marked]
      simp
    · intro g' hg'
      rw [back_end.plain_from, hdrop] at hg'
      obtain rfl | hg' := List.mem_cons.mp hg'
      · intro x hx
        exact ⟨(hregs x hx).1, fun v hv => Nat.lt_of_lt_of_le ((hregs x hx).2 v hv) hle₂⟩
      · exact hregs' g' hg'

/-- What comes after the guest instructions. -/
theorem Parallel.rest (h : Parallel B regIndex Along Grown) (hgrown : Grown base i s)
    {rest : List irInstruction} (habove : ∀ insn ∈ rest, ∀ r, irRegisters insn r → base ≤ r) :
    Grown base i (rest.foldl (B.lower last) s) := by
  induction rest generalizing s with
  | nil => exact hgrown
  | cons insn rest ih =>
    exact ih (h.grow hgrown (habove insn List.mem_cons_self))
      fun insn hmem => habove insn (List.mem_cons_of_mem _ hmem)

theorem lowered_guests_append {σ : Type} (insns : σ → List x86Instruction)
    (lower : σ → irInstruction → σ) (s : σ) (gs more : List (guest irInstruction)) :
    lowered_guests insns lower s (gs ++ more) = lowered_guests insns lower s gs ++
      lowered_guests insns lower ((gs.flatMap guest.ir).foldl lower s) more := by
  induction gs generalizing s with
  | nil => rfl
  | cons g gs ih =>
    rw [List.cons_append, lowered_guests, ih, lowered_guests, List.cons_append, List.flatMap_cons,
      List.foldl_append, guest.ir, List.foldl_cons]

/-- Two programs that start with the same guest instructions have the same code for them. -/
theorem Parallel.sameCode (h : Parallel B regIndex Along Grown) {gs : List (guest irInstruction)}
    {j j' : jitter} (hj : Starts base false gs j) (hj' : Starts base true gs j') {a a' : B.places}
    (ha : B.allocateRegisters (B.allocateInstructions j) = some a)
    (ha' : B.allocateRegisters (B.allocateInstructions j') = some a')
    (more : List (guest irInstruction)) :
    SameCode (B.emit (B.allocateInstructions j) a) (B.emit (B.allocateInstructions j') a')
      (B.plain_guests j gs) (B.marked_guests j' (gs ++ more))
      (B.insns (B.allocateInstructions j')) := by
  have hlast : ∀ r < base, j.lastReadIndex r = none ↔ j'.lastReadIndex r = none :=
    fun r hr => (hj.last_iff hr).trans (hj'.last_iff hr).symm
  obtain ⟨halong, -, hguests, hinsns, hregs⟩ := h.guests (h.start base) hj.plain hj.below hlast
  obtain ⟨rest, hrest, habove⟩ := hj.insns
  obtain ⟨rest', hrest', habove'⟩ := hj'.insns
  -- both programs are lowered to what their guest instructions give, and then go on
  have hgrown : Grown base ((gs.flatMap guest.insns).foldl (B.lower j.lastReadIndex) B.reset)
      (B.allocateInstructions j) := by
    rw [back_end.allocateInstructions, hrest, List.foldl_append]
    exact h.rest (h.grown halong).1 habove
  have hgrown' : Grown base ((gs.flatMap guest.ir).foldl (B.lower j'.lastReadIndex) B.reset)
      (B.allocateInstructions j') := by
    rw [back_end.allocateInstructions, hrest', List.foldl_append]
    exact h.rest (h.grown halong).2 habove'
  obtain ⟨xs, hxs⟩ := h.later hgrown'
  rw [hxs, hinsns, h.reset, List.nil_append, back_end.marked_guests, lowered_guests_append, hguests]
  apply sameCode_of
  · intro g hg v hv
    exact absurd (hregs g hg _ hv).1 Bool.noConfusion
  · intro g hg x hx slot
    exact h.places halong hgrown hgrown' ha ha' x (hregs g hg x hx).2 slot
  · exact fun slot v => h.marker_code _ _ slot v
  · exact fun slot slot' x hlen => h.slot_length _ _ slot slot' x hlen

end parallel

end Umeq.Jitter

/-! ## The two back ends -/

namespace Umeq.Jitter.X86_64

variable {base : Nat} {i i' s s' : inter}

theorem Alike.refl (i : inter) : Alike i i := ⟨rfl, rfl, rfl⟩

theorem Marked.bounded (h : Marked i i') (hi : Bounded base i) : Bounded base i' := by
  refine ⟨?_, ?_⟩
  · rw [h.backend, h.regIndex]
    exact hi.backend
  · intro x hx v hv
    rw [h.regIndex]
    by_cases hmarker : x.isMarker = true
    · have hregs : x.regs = [] := by
        cases x with
        | marker value => rfl
        | _ => exact absurd hmarker Bool.false_ne_true
      rw [hregs] at hv
      cases hv
    · apply hi.regs x ?_ v hv
      rw [← h.insns]
      exact List.mem_filter.mpr ⟨hx, by simpa using hmarker⟩

/-- A round, whatever the instruction. -/
theorem Grown.round (h : Grown base i s) {insn : irInstruction} (last : Nat → Option Nat)
    (habove : ∀ r, irRegisters insn r → base ≤ r) : Grown base i (allocateInstruction last s insn) := by
  by_cases hmarker : ∃ v, insn = .marker v
  · obtain ⟨v, rfl⟩ := hmarker
    apply h.add
    rintro v ⟨⟩
  · have htwin : Twin (irRegisters insn) s s (allocateInstruction last s insn)
        (allocateInstruction last s insn) :=
      twin_allocateInstruction (.refl s) (fun v hv => hmarker ⟨v, hv⟩) fun _ _ _ _ => Iff.rfl
    exact htwin.grown habove h

theorem length_gen_slot (index : Nat → Nat) {slot slot' : List UInt8} (x : x86Instruction)
    (h : slot.length = slot'.length) :
    ((gen index slot x).getD []).length = ((gen index slot' x).getD []).length := by
  have hsequence : ∀ value is_patchable, (gen_exit_sequence value is_patchable slot).length =
      (gen_exit_sequence value is_patchable slot').length := by
    intro value is_patchable
    cases is_patchable with
    | false => rfl
    | true => simp [gen_exit_sequence, h]
  cases x with
  | exit value pred is_patchable =>
    cases pred with
    | none => exact hsequence _ _
    | some q => simp [gen, gen_exit, hsequence]
  | _ => rfl

end Umeq.Jitter.X86_64

namespace Umeq.Jitter

/-- The x86_64 back end. -/
theorem x86_64_parallel : Parallel x86_64 X86_64.inter.regIndex
    (fun base i i' => X86_64.Marked i i' ∧ X86_64.Bounded base i)
    (fun base i s => X86_64.Grown base i s ∧ X86_64.Bounded base i) where
  reset := rfl
  start base := ⟨X86_64.marked_reset, X86_64.bounded_reset.mono (Nat.zero_le base)⟩
  round := by
    intro base i i' insn last last' ⟨hmarked, hbounded⟩ hplain hbelow hlast
    have htwin := X86_64.twin_allocateInstruction hmarked.toAlike hplain
      fun w dst offset he => hlast dst (by rw [he]; rfl)
    obtain ⟨xs, hxs, hxs', hregs⟩ := htwin.pieces
    have hnext := htwin.bounded hbelow hbounded
    refine ⟨⟨htwin.marked hmarked, hnext⟩, htwin.keeps.regIndex, xs, hxs, hxs', ?_⟩
    exact fun x hx => ⟨(hregs x hx).1, fun v hv => hnext.known ((hregs x hx).2 v hv)⟩
  marker := by
    intro base i i' last' v ⟨hmarked, hbounded⟩
    exact ⟨⟨hmarked.marker v, hbounded⟩, rfl⟩
  grown := by
    intro base i i' ⟨hmarked, hbounded⟩
    have hbounded' := hmarked.bounded hbounded
    exact ⟨⟨hbounded.grown, hbounded⟩, hbounded'.grown, hbounded'⟩
  grow := by
    intro base i s insn last ⟨hgrown, hbounded⟩ habove
    exact ⟨hgrown.round last habove, hbounded⟩
  later := by
    intro base i s ⟨hgrown, _⟩
    obtain ⟨xs, hxs, -⟩ := hgrown.insns
    exact ⟨xs, hxs⟩
  places := by
    intro base i i' s s' a a' ⟨hmarked, _⟩ ⟨hgrown, hbounded⟩ ⟨hgrown', hbounded'⟩ ha ha' x hx slot
    obtain ⟨a₀, ha₀, hindex⟩ := hgrown.allocateRegisters hbounded ha
    obtain ⟨a₁, ha₁, hindex'⟩ := hgrown'.allocateRegisters hbounded' ha'
    rw [hmarked.allocateRegisters, ha₀] at ha₁
    obtain rfl := Option.some.inj ha₁
    have hsame : ∀ v ∈ x.regs, a'.index v = a.index v := by
      intro v hv
      rw [hindex v (hx v hv), hindex' v (hmarked.regIndex ▸ hx v hv)]
    have hgen : X86_64.gen a'.index slot x = X86_64.gen a.index slot x :=
      X86_64.gen_congr (fun v hv => hsame v (List.mem_append_left _ hv))
        fun d hd => hsame d (List.mem_append_right _ (Option.mem_toList.mpr hd))
    exact congrArg (·.getD []) hgen
  marker_code _ _ _ _ := rfl
  slot_length s a slot slot' x h := X86_64.length_gen_slot a.index x h

end Umeq.Jitter

namespace Umeq.Jitter.I386

variable {base : Nat} {i i' s s' : inter}

theorem Alike.refl (i : inter) : Alike i i := ⟨.refl _, rfl⟩

/-- A round, whatever the instruction. -/
theorem Grown.round (h : Grown base i s) {insn : irInstruction} (last : Nat → Option Nat)
    (habove : ∀ r, irRegisters insn r → base ≤ r) : Grown base i (allocateInstruction last s insn) := by
  by_cases hmarker : ∃ v, insn = .marker v
  · obtain ⟨v, rfl⟩ := hmarker
    refine ⟨h.toGrown.add ?_, h.wide⟩
    rintro v ⟨⟩
  · have htwin : Twin (irRegisters insn) s s (allocateInstruction last s insn)
        (allocateInstruction last s insn) :=
      twin_allocateInstruction (.refl s) (fun v hv => hmarker ⟨v, hv⟩) fun _ _ _ _ => Iff.rfl
    exact htwin.grown habove h

end Umeq.Jitter.I386

namespace Umeq.Jitter

/-- The i386 back end. -/
theorem i386_parallel (helper : I386.shift_helpers) : Parallel (i386 helper) (fun i => i.regIndex)
    (fun base i i' => I386.Marked i i' ∧ X86_64.Bounded base i.tointer)
    (fun base i s => I386.Grown base i s ∧ X86_64.Bounded base i.tointer) where
  reset := rfl
  start base := ⟨⟨X86_64.marked_reset, rfl⟩, X86_64.bounded_reset.mono (Nat.zero_le base)⟩
  round := by
    intro base i i' insn last last' ⟨hmarked, hbounded⟩ hplain hbelow hlast
    have htwin := I386.twin_allocateInstruction hmarked.alike hplain
      fun w dst offset he => hlast dst (by rw [he]; rfl)
    obtain ⟨xs, hxs, hxs', hregs⟩ := htwin.inner.pieces
    have hnext := htwin.inner.bounded hbelow hbounded
    refine ⟨⟨htwin.marked hmarked, hnext⟩, htwin.inner.keeps.regIndex, xs, hxs, hxs', ?_⟩
    exact fun x hx => ⟨(hregs x hx).1, fun v hv => hnext.known ((hregs x hx).2 v hv)⟩
  marker := by
    intro base i i' last' v ⟨hmarked, hbounded⟩
    exact ⟨⟨hmarked.marker v, hbounded⟩, rfl⟩
  grown := by
    intro base i i' ⟨hmarked, hbounded⟩
    have hbounded' := hmarked.toMarked.bounded hbounded
    exact ⟨⟨⟨hbounded.grown, fun v _ => rfl⟩, hbounded⟩, ⟨hbounded'.grown, fun v _ => rfl⟩, hbounded'⟩
  grow := by
    intro base i s insn last ⟨hgrown, hbounded⟩ habove
    exact ⟨hgrown.round last habove, hbounded⟩
  later := by
    intro base i s ⟨hgrown, _⟩
    obtain ⟨xs, hxs, -⟩ := hgrown.insns
    exact ⟨xs, hxs⟩
  places := by
    intro base i i' s s' a a' ⟨hmarked, _⟩ ⟨hgrown, hbounded⟩ ⟨hgrown', hbounded'⟩ ha ha' x hx slot
    obtain ⟨a₀, ha₀, hindex⟩ := hgrown.allocateRegisters hbounded ha
    obtain ⟨a₁, ha₁, hindex'⟩ := hgrown'.allocateRegisters hbounded' ha'
    rw [hmarked.allocateRegisters, ha₀] at ha₁
    obtain rfl := Option.some.inj ha₁
    have hsame : ∀ v ∈ x.regs, I386.registers s' a' v = I386.registers s a v := by
      intro v hv
      have hlt := hx v hv
      have hlt' : v < i'.regIndex := hmarked.regIndex ▸ hlt
      simp only [I386.registers, hindex v hlt, hindex' v hlt', hgrown.wide v hlt,
        hgrown'.wide v hlt', hmarked.wide]
    have hgen : I386.gen helper (I386.registers s' a') x = I386.gen helper (I386.registers s a) x :=
      I386.gen_congr (fun v hv => hsame v (List.mem_append_left _ hv))
        fun d hd => hsame d (List.mem_append_right _ (Option.mem_toList.mpr hd))
    exact congrArg (·.getD []) hgen
  marker_code _ _ _ _ := rfl
  slot_length _ _ _ _ _ _ := rfl

end Umeq.Jitter
