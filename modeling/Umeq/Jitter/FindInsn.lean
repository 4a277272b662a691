import Umeq.Jitter.X8664.Emit
import Umeq.Jitter.I386.Emit

/-! # From a host pc to a guest instruction

    `findInsn` makes the code of a program again and counts its bytes up to a host pc. Each
    guest instruction starts with a marker, which has no code, and the value of the last
    marker met is the answer.

    The loop looks at the position after the code of an instruction, so that it stops at
    the instruction of the byte before the host pc (`findInsnInCode_before`). This is the
    one that the host pc is in, unless the host pc is at the first byte of the code of a
    guest instruction (`findInsn_iff`).
-/

namespace Umeq.Jitter

open X86_64 (x86Instruction)

/-- A guest instruction: the value of its marker and what it is translated to. -/
structure guest (ι : Type) where
  value : BitVec 32
  insns : List ι

/-- The loop of `findInsnInCode` of both back ends. The code of instruction `k` is given by
    `code`. -/
def findInsnInCode (code : Nat → x86Instruction → List UInt8) (offset : Nat) :
    Nat → Nat → BitVec 32 → List x86Instruction → BitVec 32
  | _, _, res, [] => res
  | k, pos, _, .marker value :: insns =>
    if pos ≥ offset then value else findInsnInCode code offset (k + 1) pos value insns
  | k, pos, res, insn :: insns =>
    let pos := pos + (code k insn).length
    if pos ≥ offset then res else findInsnInCode code offset (k + 1) pos res insns

/-! ## The layout of the code -/

section layout

variable (code : Nat → x86Instruction → List UInt8)

/-- The bytes of the code of instructions, from instruction `k` on. -/
def size : Nat → List x86Instruction → Nat
  | _, [] => 0
  | k, insn :: insns => (code k insn).length + size (k + 1) insns

/-- A guest instruction with its marker. -/
def guest.marked (g : guest x86Instruction) : List x86Instruction := .marker g.value :: g.insns

/-- Where the code of guest instruction `n` starts. -/
def guest_start (gs : List (guest x86Instruction)) (n : Nat) : Nat :=
  size code 0 ((gs.take n).flatMap guest.marked)

/-- The byte at `offset` is emitted for guest instruction `n`. -/
def Emitted (gs : List (guest x86Instruction)) (n offset : Nat) : Prop :=
  guest_start code gs n ≤ offset ∧ offset < guest_start code gs (n + 1)

/-- The byte before `offset` is emitted for guest instruction `n`; before the first byte of
    all it is the first guest instruction. -/
def EmittedBefore (gs : List (guest x86Instruction)) (n offset : Nat) : Prop :=
  if offset = 0 then n = 0 else Emitted code gs n (offset - 1)

variable {code} {k pos offset : Nat} {res : BitVec 32} {a b : List x86Instruction}
  {gs : List (guest x86Instruction)}

theorem size_append (k : Nat) (a b : List x86Instruction) :
    size code k (a ++ b) = size code k a + size code (k + a.length) b := by
  induction a generalizing k with
  | nil => simp [size]
  | cons insn a ih =>
    rw [List.cons_append, size, size, ih, List.length_cons, Nat.add_assoc, Nat.add_comm a.length,
      Nat.add_assoc]

/-- One instruction that is no marker. -/
theorem findInsnInCode_cons {insn : x86Instruction} (hplain : ∀ v, .marker v ≠ insn) :
    findInsnInCode code offset k pos res (insn :: a) =
      if pos + (code k insn).length ≥ offset then res
      else findInsnInCode code offset (k + 1) (pos + (code k insn).length) res a := by
  cases insn with
  | marker v => exact absurd rfl (hplain v)
  | _ => rfl

/-- The loop goes past instructions that end before `offset`. -/
theorem findInsnInCode_skip (hplain : ∀ v, .marker v ∉ a) (hlt : pos + size code k a < offset) :
    findInsnInCode code offset k pos res (a ++ b) =
      findInsnInCode code offset (k + a.length) (pos + size code k a) res b := by
  induction a generalizing k pos with
  | nil => rfl
  | cons insn a ih =>
    rw [size] at hlt
    have hne : ∀ v, .marker v ≠ insn := fun v he => hplain v (he ▸ List.mem_cons_self)
    rw [List.cons_append, findInsnInCode_cons hne, if_neg (by omega),
      ih (fun v hv => hplain v (List.mem_cons_of_mem _ hv)) (by omega), size, List.length_cons,
      Nat.add_assoc, Nat.add_comm 1, Nat.add_assoc]

/-- It stops in instructions that end at or after `offset`. -/
theorem findInsnInCode_stop (hplain : ∀ v, .marker v ∉ a) (hpos : pos < offset)
    (hle : offset ≤ pos + size code k a) : findInsnInCode code offset k pos res (a ++ b) = res := by
  induction a generalizing k pos with
  | nil =>
    rw [size] at hle
    omega
  | cons insn a ih =>
    rw [size] at hle
    have hne : ∀ v, .marker v ≠ insn := fun v he => hplain v (he ▸ List.mem_cons_self)
    rw [List.cons_append, findInsnInCode_cons hne]
    split_ifs with hstop
    · rfl
    · exact ih (fun v hv => hplain v (List.mem_cons_of_mem _ hv)) (by omega) (by omega)

variable (hmark : ∀ k v, code k (.marker v) = []) (hplain : ∀ g ∈ gs, ∀ v, .marker v ∉ g.insns)

include hmark hplain in
/-- The loop from the marker of a guest instruction on. -/
theorem findInsnInCode_guest {n : Nat} {g : guest x86Instruction} (hg : gs[n]? = some g)
    (hlo : pos + size code k ((gs.take n).flatMap guest.marked) < offset)
    (hhi : offset ≤ pos + size code k ((gs.take (n + 1)).flatMap guest.marked)) :
    findInsnInCode code offset k pos res (gs.flatMap guest.marked) = g.value := by
  induction gs generalizing n k pos res with
  | nil => cases hg
  | cons g' gs ih =>
    have hfirst : ∀ v, .marker v ∉ g'.insns := hplain g' List.mem_cons_self
    have hsize : ∀ k insns, size code k (g'.marked ++ insns) =
        size code (k + 1) g'.insns + size code (k + 1 + g'.insns.length) insns := by
      intro k insns
      rw [guest.marked, List.cons_append, size, hmark, size_append]
      simp
    rw [List.take_succ_cons, List.flatMap_cons, hsize] at hhi
    rw [List.flatMap_cons, guest.marked, List.cons_append, findInsnInCode]
    cases n with
    | zero =>
      obtain rfl := Option.some.inj hg
      rw [List.take_zero, List.flatMap_nil, size] at hlo hhi
      rw [if_neg (by omega)]
      exact findInsnInCode_stop hfirst (by omega) (by omega)
    | succ n =>
      rw [List.take_succ_cons, List.flatMap_cons, hsize] at hlo
      rw [if_neg (by omega), findInsnInCode_skip hfirst (by omega)]
      exact ih (fun g hmem => hplain g (List.mem_cons_of_mem _ hmem)) hg (by omega) (by omega)

include hmark hplain in
/-- The loop answers for the byte before `offset`. -/
theorem findInsnInCode_before {n : Nat} {g : guest x86Instruction} (hg : gs[n]? = some g)
    (hbefore : EmittedBefore code gs n offset) :
    findInsnInCode code offset 0 0 res (gs.flatMap guest.marked) = g.value := by
  rw [EmittedBefore] at hbefore
  split_ifs at hbefore with hzero
  · subst hzero hbefore
    cases gs with
    | nil => cases hg
    | cons g' gs =>
      obtain rfl := Option.some.inj hg
      rw [List.flatMap_cons, guest.marked, List.cons_append, findInsnInCode, if_pos (Nat.le_refl _)]
  · obtain ⟨hlo, hhi⟩ := hbefore
    rw [guest_start] at hlo hhi
    exact findInsnInCode_guest hmark hplain hg (by omega) (by omega)

/-- Every byte of the code is emitted for some guest instruction. -/
theorem exists_emitted (offset : Nat) {n : Nat} (hlt : offset < guest_start code gs n) :
    ∃ m < n, Emitted code gs m offset := by
  induction n with
  | zero => simp [guest_start, size] at hlt
  | succ n ih =>
    rcases Nat.lt_or_ge offset (guest_start code gs n) with hlt' | hge
    · obtain ⟨m, hm, hemitted⟩ := ih hlt'
      exact ⟨m, by omega, hemitted⟩
    · exact ⟨n, Nat.lt_succ_self n, hge, hlt⟩

include hmark hplain in
/-- When the loop answers with the guest instruction that a byte is emitted for. -/
theorem findInsnInCode_iff {n : Nat} {g : guest x86Instruction} (hg : gs[n]? = some g)
    (hemitted : Emitted code gs n offset) :
    findInsnInCode code offset 0 0 res (gs.flatMap guest.marked) = g.value ↔
      guest_start code gs n < offset ∨
        ∃ m g', gs[m]? = some g' ∧ EmittedBefore code gs m offset ∧ g'.value = g.value := by
  obtain ⟨hlo, hhi⟩ := hemitted
  obtain ⟨hn, -⟩ := List.getElem?_eq_some_iff.mp hg
  constructor
  · intro hfind
    by_contra hnot
    rw [not_or] at hnot
    obtain ⟨hle, hother⟩ := hnot
    -- some guest instruction has the byte before
    obtain ⟨m, hm, hbefore⟩ : ∃ m ≤ n, EmittedBefore code gs m offset := by
      by_cases hzero : offset = 0
      · exact ⟨0, Nat.zero_le n, by rw [EmittedBefore, if_pos hzero]⟩
      · have hlt : offset - 1 < guest_start code gs n := by omega
        obtain ⟨m, hm, hemitted⟩ := exists_emitted (offset - 1) hlt
        exact ⟨m, Nat.le_of_lt hm, by rwa [EmittedBefore, if_neg hzero]⟩
    have hg' := List.getElem?_eq_getElem (l := gs) (i := m) (by omega)
    refine hother ⟨m, _, hg', hbefore, ?_⟩
    exact (findInsnInCode_before hmark hplain hg' hbefore).symm.trans hfind
  · rintro (hlt | ⟨m, g', hg', hbefore, hvalue⟩)
    · refine findInsnInCode_before hmark hplain hg ?_
      rw [EmittedBefore, if_neg (by omega)]
      exact ⟨by omega, by omega⟩
    · rw [← hvalue]
      exact findInsnInCode_before hmark hplain hg' hbefore

end layout

/-! ## Lowering of guest instructions -/

/-- When the search answers `value` for a byte of the code of guest instruction `n`: the byte
    is not the first of it, or the byte before has that value. -/
def FindsAt (code : Nat → x86Instruction → List UInt8) (gs : List (guest x86Instruction))
    (n offset : Nat) (value : BitVec 32) : Prop :=
  guest_start code gs n < offset ∨
    ∃ m g, gs[m]? = some g ∧ EmittedBefore code gs m offset ∧ g.value = value

section lowering

variable {σ : Type} (insns : σ → List x86Instruction) (lower : σ → irInstruction → σ)

/-- A guest instruction as a program has it. -/
def guest.ir (g : guest irInstruction) : List irInstruction := .marker g.value :: g.insns

/-- The guest instructions of a program with the instructions that the rounds of
    `allocateInstructions` add for each. -/
def lowered_guests (s : σ) : List (guest irInstruction) → List (guest x86Instruction)
  | [] => []
  | g :: gs =>
    let s₁ := lower s (.marker g.value)
    let s₂ := g.insns.foldl lower s₁
    ⟨g.value, (insns s₂).drop (insns s₁).length⟩ :: lowered_guests s₂ gs

/-- A round adds instructions; it adds a marker for a marker and for nothing else. -/
structure Rounds : Prop where
  plain : ∀ s insn, (∀ v, insn ≠ .marker v) →
    ∃ xs, insns (lower s insn) = insns s ++ xs ∧ ∀ v, .marker v ∉ xs
  marker : ∀ s v, insns (lower s (.marker v)) = insns s ++ [.marker v]

variable {insns lower}

theorem Rounds.foldl (h : Rounds insns lower) (s : σ) {body : List irInstruction}
    (hplain : ∀ v, .marker v ∉ body) :
    ∃ xs, insns (body.foldl lower s) = insns s ++ xs ∧ ∀ v, .marker v ∉ xs := by
  induction body generalizing s with
  | nil => exact ⟨[], by simp⟩
  | cons insn body ih =>
    obtain ⟨xs, hxs, hmark⟩ := h.plain s insn fun v he => hplain v (he ▸ List.mem_cons_self)
    obtain ⟨ys, hys, hmark'⟩ := ih (lower s insn) fun v hv => hplain v (List.mem_cons_of_mem _ hv)
    refine ⟨xs ++ ys, by rw [List.foldl_cons, hys, hxs, List.append_assoc], ?_⟩
    intro v hv
    rcases List.mem_append.mp hv with hv | hv
    · exact hmark v hv
    · exact hmark' v hv

/-- The lowered program consists of the lowered guest instructions. -/
theorem Rounds.guests (h : Rounds insns lower) (s : σ) {gs : List (guest irInstruction)}
    (hplain : ∀ g ∈ gs, ∀ v, .marker v ∉ g.insns) :
    insns ((gs.flatMap guest.ir).foldl lower s) =
        insns s ++ (lowered_guests insns lower s gs).flatMap guest.marked ∧
      (∀ g ∈ lowered_guests insns lower s gs, ∀ v, .marker v ∉ g.insns) ∧
      (lowered_guests insns lower s gs).map guest.value = gs.map guest.value := by
  induction gs generalizing s with
  | nil => simp [lowered_guests]
  | cons g gs ih =>
    obtain ⟨xs, hxs, hmark⟩ := h.foldl (lower s (.marker g.value)) (hplain g List.mem_cons_self)
    obtain ⟨hinsns, hplain', hvalues⟩ := ih (g.insns.foldl lower (lower s (.marker g.value)))
      fun g hg => hplain g (List.mem_cons_of_mem _ hg)
    have hdrop : (insns (g.insns.foldl lower (lower s (.marker g.value)))).drop
        (insns (lower s (.marker g.value))).length = xs := by
      rw [hxs, List.drop_left]
    refine ⟨?_, ?_, ?_⟩
    · rw [List.flatMap_cons, List.foldl_append, guest.ir, List.foldl_cons, hinsns, hxs, h.marker,
        lowered_guests, List.flatMap_cons, hdrop, guest.marked]
      simp
    · intro g' hg'
      rcases List.mem_cons.mp hg' with rfl | hg'
      · show ∀ v, .marker v ∉ (insns _).drop _
        rw [hdrop]
        exact hmark
      · exact hplain' g' hg'
    · rw [lowered_guests, List.map_cons, hvalues, List.map_cons]

theorem getElem?_value {ι κ : Type} {gs : List (guest ι)} {gs' : List (guest κ)}
    (h : gs'.map guest.value = gs.map guest.value) {n : Nat} {g : guest ι} (hg : gs[n]? = some g) :
    ∃ g', gs'[n]? = some g' ∧ g'.value = g.value := by
  have hn := congrArg (·[n]?) h
  simp only [List.getElem?_map, hg, Option.map_some] at hn
  exact Option.map_eq_some_iff.mp hn

/-- The search in the lowered program. -/
theorem Rounds.finds (h : Rounds insns lower) {s : σ} (hs : insns s = [])
    {gs : List (guest irInstruction)} (hplain : ∀ g ∈ gs, ∀ v, .marker v ∉ g.insns)
    {code : Nat → x86Instruction → List UInt8} (hmark : ∀ k v, code k (.marker v) = [])
    {n offset : Nat} {g : guest irInstruction} (hg : gs[n]? = some g)
    (hemitted : Emitted code (lowered_guests insns lower s gs) n offset) (res : BitVec 32) :
    findInsnInCode code offset 0 0 res (insns ((gs.flatMap guest.ir).foldl lower s)) = g.value ↔
      FindsAt code (lowered_guests insns lower s gs) n offset g.value := by
  obtain ⟨hinsns, hplain', hvalues⟩ := h.guests s hplain
  obtain ⟨g', hg', hvalue⟩ := getElem?_value hvalues hg
  rw [hinsns, hs, List.nil_append, ← hvalue]
  exact findInsnInCode_iff hmark hplain' hg' hemitted

end lowering

end Umeq.Jitter

/-! ## The two back ends -/

namespace Umeq.Jitter.X86_64

/-- The code of an instruction; a marker has none. -/
def code_of (a : LinearScan.places Nat) (hole : Nat → List UInt8) (k : Nat) (insn : x86Instruction) :
    List UInt8 :=
  (gen a.index (hole k) insn).getD []

/-- `findInsnInCode`. -/
def findInsnInCode (a : LinearScan.places Nat) (hole : Nat → List UInt8) (offset : Nat)
    (insns : List x86Instruction) : BitVec 32 :=
  Jitter.findInsnInCode (code_of a hole) offset 0 0 (BitVec.allOnes 32) insns

/-- `get_marker`. -/
def get_marker (j : jitter) (hole : Nat → List UInt8) (offset : Nat) : Option (BitVec 32) := do
  let i := allocateInstructions j
  let a ← allocateRegisters i
  some (findInsnInCode a hole offset i.insns)

/-- The guest instructions of a program, lowered. -/
def guests (j : jitter) (gs : List (guest irInstruction)) : List (guest x86Instruction) :=
  lowered_guests inter.insns (allocateInstruction j.lastReadIndex) reset gs

section rounds

variable (i : inter) (r : irRegister)

@[simp] theorem insns_allocateTemporary : (allocateTemporary i).1.insns = i.insns := rfl

@[simp] theorem insns_allocateRegister : (allocateRegister i r).1.insns = i.insns := by
  unfold allocateRegister
  split <;> rfl

@[simp] theorem insns_allocateOptional (o : Option irRegister) :
    (allocateOptional i o).1.insns = i.insns := by
  cases o with
  | none => rfl
  | some r => exact insns_allocateRegister i r

@[simp] theorem insns_add (insn : x86Instruction) : (i.add insn).insns = i.insns ++ [insn] := rfl

end rounds

theorem rounds (lastReadIndex : Nat → Option Nat) :
    Rounds inter.insns (allocateInstruction lastReadIndex) := by
  refine ⟨?_, fun s v => rfl⟩
  intro s insn hne
  cases insn with
  | marker v => exact absurd rfl (hne v)
  | mov w dst value => exact ⟨[_], by simp [allocateInstruction, add_mov_const]; rfl, by simp⟩
  | binop type w dst op1 op2 =>
    by_cases hasr : type = .ASR
    · by_cases hshift : sign_shift w ≠ 0
      · exact ⟨[_, _, _, _], by
          simp [allocateInstruction, hasr, add_asr, hshift, add_mov_const]
          exact ⟨rfl, rfl, rfl, rfl⟩, by simp⟩
      · exact ⟨[_], by simp [allocateInstruction, hasr, add_asr, hshift]; rfl, by simp⟩
    · exact ⟨[_], by simp [allocateInstruction, hasr]; rfl, by simp⟩
  | exit value pred => exact ⟨[_], by simp [allocateInstruction, add_exit]; rfl, by simp⟩
  | read_context w dst offset =>
    by_cases hread : lastReadIndex dst.index ≠ none
    · exact ⟨[_], by simp [allocateInstruction, hread]; rfl, by simp⟩
    · exact ⟨[], by simp [allocateInstruction, hread], by simp⟩
  | _ => exact ⟨[_], by simp [allocateInstruction]; rfl, by simp⟩

end Umeq.Jitter.X86_64

namespace Umeq.Jitter.I386

open X86_64 (x86Instruction)

/-- The code of an instruction; a marker has none. -/
def code_of (helper : shift_helpers) (i : inter) (a : LinearScan.places (Nat × Bool)) (_ : Nat)
    (insn : x86Instruction) : List UInt8 :=
  (gen helper (registers i a) insn).getD []

/-- `findInsnInCode`. -/
def findInsnInCode (helper : shift_helpers) (i : inter) (a : LinearScan.places (Nat × Bool))
    (offset : Nat) (insns : List x86Instruction) : BitVec 32 :=
  Jitter.findInsnInCode (code_of helper i a) offset 0 0 (BitVec.allOnes 32) insns

/-- `get_marker`. -/
def get_marker (helper : shift_helpers) (j : jitter) (offset : Nat) : Option (BitVec 32) := do
  let i := allocateInstructions j
  let a ← allocateRegisters i
  some (findInsnInCode helper i a offset i.insns)

/-- The guest instructions of a program, lowered. -/
def guests (j : jitter) (gs : List (guest irInstruction)) : List (guest x86Instruction) :=
  lowered_guests (fun i : inter => i.insns) (allocateInstruction j.lastReadIndex) reset gs

section rounds

variable (i : inter) (r : irRegister)

@[simp] theorem insns_allocateTemporary : (allocateTemporary i).1.insns = i.insns := rfl

@[simp] theorem insns_allocateRegister : (allocateRegister i r).1.insns = i.insns := by
  unfold allocateRegister
  split <;> rfl

@[simp] theorem insns_allocateOptional (o : Option irRegister) :
    (allocateOptional i o).1.insns = i.insns := by
  cases o with
  | none => rfl
  | some r => exact insns_allocateRegister i r

@[simp] theorem insns_add (insn : x86Instruction) : (i.add insn).insns = i.insns ++ [insn] := rfl

@[simp] theorem insns_add_mov_const (dst : Nat) (value : BitVec 64) :
    (add_mov_const i dst value).insns = i.insns ++ [.mov_const dst value] := rfl

@[simp] theorem insns_add_exit (value : Nat) (pred : Option Nat) :
    (add_exit i value pred).insns = i.insns ++ [.exit value pred (i.isConstant value)] := rfl

end rounds

theorem rounds (lastReadIndex : Nat → Option Nat) :
    Rounds (fun i : inter => i.insns) (allocateInstruction lastReadIndex) := by
  refine ⟨?_, fun s v => rfl⟩
  intro s insn hne
  cases insn with
  | marker v => exact absurd rfl (hne v)
  | store w src address =>
    by_cases hwide : address.type = .w64
    · exact ⟨[_, _], by simp [allocateInstruction, hwide]; exact ⟨rfl, rfl⟩, by simp⟩
    · exact ⟨[_], by simp [allocateInstruction, hwide]; rfl, by simp⟩
  | binop type w dst op1 op2 =>
    by_cases hasr : type = .ASR
    · by_cases hshift : sign_shift w ≠ 0
      · exact ⟨[_, _, _, _], by
          simp [allocateInstruction, hasr, add_asr, hshift]
          exact ⟨rfl, rfl, rfl, rfl⟩, by simp⟩
      · exact ⟨[_], by simp [allocateInstruction, hasr, add_asr, hshift]; rfl, by simp⟩
    · exact ⟨[_], by simp [allocateInstruction, hasr]; rfl, by simp⟩
  | read_context w dst offset =>
    by_cases hread : lastReadIndex dst.index ≠ none
    · exact ⟨[_], by simp [allocateInstruction, hread]; rfl, by simp⟩
    · exact ⟨[], by simp [allocateInstruction, hread], by simp⟩
  | _ => exact ⟨[_], by simp [allocateInstruction]; rfl, by simp⟩

end Umeq.Jitter.I386

/-! ## What `findInsn` answers -/

namespace Umeq.Jitter

/-- For a byte of the code of guest instruction `n`, the search gives the marker of `n` if
    and only if the byte is not the first of the code of `n`, or the byte before it has the
    same marker. This holds of both back ends. -/
theorem findInsn_iff {j : jitter} {gs : List (guest irInstruction)} (hj : j.insns = gs.flatMap guest.ir)
    (hplain : ∀ g ∈ gs, ∀ v, .marker v ∉ g.insns) {n : Nat} {g : guest irInstruction}
    (hg : gs[n]? = some g) (offset : Nat) :
    (∀ hole a, X86_64.allocateRegisters (X86_64.allocateInstructions j) = some a →
      Emitted (X86_64.code_of a hole) (X86_64.guests j gs) n offset →
      (X86_64.get_marker j hole offset = some g.value ↔
        FindsAt (X86_64.code_of a hole) (X86_64.guests j gs) n offset g.value)) ∧
    ∀ helper a, I386.allocateRegisters (I386.allocateInstructions j) = some a →
      Emitted (I386.code_of helper (I386.allocateInstructions j) a) (I386.guests j gs) n offset →
      (I386.get_marker helper j offset = some g.value ↔
        FindsAt (I386.code_of helper (I386.allocateInstructions j) a) (I386.guests j gs) n offset
          g.value) := by
  refine ⟨?_, ?_⟩
  · intro hole a ha hemitted
    have hfind := (X86_64.rounds j.lastReadIndex).finds rfl hplain (fun _ _ => rfl) hg hemitted
      (BitVec.allOnes 32)
    rw [← hj] at hfind
    rw [X86_64.get_marker, ha, Option.bind_eq_bind, Option.bind_some, Option.some_inj]
    exact hfind
  · intro helper a ha hemitted
    have hfind := (I386.rounds j.lastReadIndex).finds rfl hplain (fun _ _ => rfl) hg hemitted
      (BitVec.allOnes 32)
    rw [← hj] at hfind
    rw [I386.get_marker, ha, Option.bind_eq_bind, Option.bind_some, Option.some_inj]
    exact hfind

/-! ### Two guest instructions -/

/-- Two moves of constants, each of them a guest instruction, and an exit. -/
def two_moves : jitter :=
  let j := add_insn_marker 0 resetJitter
  let (j, _) := add_mov_const .w64 1 j
  let j := add_insn_marker 4 j
  let (j, pc) := add_mov_const .w64 2 j
  (add_exit_cond pc none j).getD j

def two_guests : List (guest irInstruction) :=
  [⟨0, [.mov .w64 ⟨.w64, 0⟩ 1]⟩, ⟨4, [.mov .w64 ⟨.w64, 1⟩ 2, .exit ⟨.w64, 1⟩ none]⟩]

def no_holes (_ : Nat) : List UInt8 := List.replicate 8 0

def no_shifts : I386.shift_helpers := ⟨0, 0, 0, 0⟩

/-- At the exit both back ends find the second guest instruction. -/
theorem exit_found : two_moves.insns = two_guests.flatMap guest.ir ∧
    X86_64.get_marker two_moves no_holes 20 = some 4 ∧ I386.get_marker no_shifts two_moves 28 = some 4 := by
  have hplain : ∀ g ∈ two_guests, ∀ v, .marker v ∉ g.insns := by simp [two_guests]
  refine ⟨rfl, ?_, ?_⟩
  · exact ((findInsn_iff rfl hplain (n := 1) rfl 20).1 no_holes _ rfl ⟨by decide, by decide⟩).mpr
      (.inl (by decide))
  · exact ((findInsn_iff rfl hplain (n := 1) rfl 28).2 no_shifts _ rfl ⟨by decide, by decide⟩).mpr
      (.inl (by decide))

/-- Where the code of the second guest instruction starts, both find the first one. -/
theorem second_guest_not_found : two_moves.insns = two_guests.flatMap guest.ir ∧
    (∃ a, X86_64.allocateRegisters (X86_64.allocateInstructions two_moves) = some a ∧
      Emitted (X86_64.code_of a no_holes) (X86_64.guests two_moves two_guests) 1 10) ∧
    X86_64.get_marker two_moves no_holes 10 = some 0 ∧
    (∃ a, I386.allocateRegisters (I386.allocateInstructions two_moves) = some a ∧
      Emitted (I386.code_of no_shifts (I386.allocateInstructions two_moves) a)
        (I386.guests two_moves two_guests) 1 14) ∧
    I386.get_marker no_shifts two_moves 14 = some 0 :=
  ⟨rfl, ⟨_, rfl, by decide, by decide⟩, rfl, ⟨_, rfl, by decide, by decide⟩, rfl⟩

end Umeq.Jitter
