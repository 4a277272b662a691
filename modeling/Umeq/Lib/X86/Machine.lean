import Umeq.Lib.X86.Encoding
import Mathlib.Logic.Relation

/-! # The x86-64 machine

    The machine runs bytes: a step decodes the instruction at `rip` and executes it.

    The stack is kept apart from the memory, so that no load or store reaches it.
    A `ret` with nothing on the stack gives control back to whoever started the
    code. A call goes to a function outside the code, which is a parameter.

    `climbs_apply` is the rule for straight-line code: a list of instructions is
    run as a whole, and only jumps are taken one step at a time.
-/

namespace X86

open Bytes Words

/-! ## What instructions do -/

structure cpu where
  regs : Reg → BitVec 64
  zf : Bool
  mem : Mem
  stack : List (BitVec 64)
  /-- The place of the next instruction in the code. -/
  rip : Nat
  /-- Ghost: the calls made, with the registers at the call. -/
  calls : List (BitVec 64 × (Reg → BitVec 64))

/-- What the functions outside the code do to the registers, the memory and the
    flag. -/
structure externals where
  run : BitVec 64 → (Reg → BitVec 64) → Mem → (Reg → BitVec 64) × Mem × Bool

def cpu.set (c : cpu) (r : Reg) (v : BitVec 64) : cpu :=
  { c with regs := Function.update c.regs r v }

def alu.eval : alu → BitVec 64 → BitVec 64 → BitVec 64
  | .add, x, y => x + y
  | .or, x, y => x ||| y
  | .and, x, y => x &&& y
  | .sub, x, y => x - y
  | .xor, x, y => x ^^^ y

def shift.eval (w : width) (op : shift) (x : BitVec 64) (n : Nat) : BitVec 64 :=
  let x := x.setWidth w.bits
  (match op with
    | .ror => x.rotateRight n
    | .shl => x <<< n
    | .shr => x >>> n
    | .sar => x.sshiftRight n).setWidth 64

/-- The part of a count that the machine looks at. -/
def shift_count (w : width) (n : Nat) : Nat := if w = .w64 then n % 64 else n % 32

def cpu.shift (c : cpu) (w : width) (op : shift) (dst : Reg) (n : Nat) : cpu :=
  let n := shift_count w n
  let v := merge w (c.regs dst) (op.eval w (c.regs dst) n)
  { c.set dst v with zf := if op = .ror ∨ n = 0 then c.zf else low w v = 0 }

def cpu.effective (c : cpu) (base : Reg) (disp : BitVec 32) : Nat :=
  (c.regs base + disp.signExtend 64).toNat

/-- The instructions that go on to the next one. -/
def asm.apply (e : externals) (c : cpu) : asm → Option cpu
  | .mov_imm dst imm => some (c.set dst imm)
  | .xor32 dst src =>
    let v := low .w32 (c.regs dst ^^^ c.regs src)
    some { c.set dst v with zf := v = 0 }
  | .mov dst src => some (c.set dst (c.regs src))
  | .load w dst base disp =>
    let v := BitVec.ofNat 64 (c.mem.load (c.effective base disp) w.bytes)
    some (c.set dst (merge w (c.regs dst) v))
  | .store w src base disp =>
    some { c with mem := c.mem.store (c.effective base disp) w.bytes (c.regs src).toNat }
  | .alu op dst src =>
    let v := op.eval (c.regs dst) (c.regs src)
    some { c.set dst v with zf := v = 0 }
  | .cmp a b => some { c with zf := c.regs a = c.regs b }
  | .cmp_imm a imm => some { c with zf := c.regs a = imm.signExtend 64 }
  | .shift_cl w op dst => some (c.shift w op dst ((c.regs rcx).toNat % 256))
  | .shift_imm op dst imm => some (c.shift .w64 op dst imm.toNat)
  | .cmovnz dst src => some (if c.zf then c else c.set dst (c.regs src))
  | .push r => some { c with stack := c.regs r :: c.stack }
  | .pop r =>
    match c.stack with
    | [] => none
    | v :: stack => some { c.set r v with stack := stack }
  | .call r =>
    let (regs, mem, zf) := e.run (c.regs r) c.regs c.mem
    some { c with regs := regs, mem := mem, zf := zf, calls := c.calls ++ [(c.regs r, c.regs)] }
  | .nop => some c
  | .jcc _ _ | .lea_rip _ _ | .ret | .jmp _ => none

inductive outcome where
  | next (c : cpu)
  | done (c : cpu)
  | jump (target : BitVec 64) (c : cpu)

/-- Code at an address. -/
structure program where
  base : Nat
  code : List UInt8

/-- An instruction, with `rip` already after it. -/
def asm.exec (p : program) (e : externals) (c : cpu) : asm → Option outcome
  | .jcc nz rel =>
    some (.next (if c.zf = nz then c else { c with rip := (c.rip + rel.toInt).toNat }))
  | .lea_rip dst disp =>
    some (.next (c.set dst (BitVec.ofNat 64 (p.base + c.rip) + disp.signExtend 64)))
  | .ret => if c.stack = [] then some (.done c) else none
  | .jmp r => some (.jump (c.regs r) c)
  | i => (i.apply e c).map .next

def step (p : program) (e : externals) (c : cpu) : Option outcome := do
  let (i, rest) ← decode (p.code.drop c.rip)
  i.exec p e { c with rip := p.code.length - rest.length }

/-- Run until control leaves the code. -/
def run (p : program) (e : externals) : Nat → cpu → Option outcome
  | 0, _ => none
  | fuel + 1, c =>
    match step p e c with
    | some (.next c) => run p e fuel c
    | out => out

/-! ## Runs -/

section runs

variable {p : program} {e : externals} {c c' c'' : cpu} {pre post : List UInt8}

/-- The states that a run goes through. -/
def Reaches (p : program) (e : externals) : cpu → cpu → Prop :=
  Relation.ReflTransGen fun c c' => step p e c = some (.next c')

/-- A run in which `rip` goes up at each step. -/
def Climbs (p : program) (e : externals) : cpu → cpu → Prop :=
  Relation.ReflTransGen fun c c' => step p e c = some (.next c') ∧ c.rip < c'.rip

theorem Climbs.reaches (h : Climbs p e c c') : Reaches p e c c' :=
  Relation.ReflTransGen.mono (fun _ _ hstep => hstep.1) _ _ h

theorem Climbs.rip_le (h : Climbs p e c c') : c.rip ≤ c'.rip := by
  induction h with
  | refl => exact Nat.le_refl _
  | tail _ hstep ih => exact Nat.le_trans ih (Nat.le_of_lt hstep.2)

/-- A climb that ends where it started has not moved. -/
theorem Climbs.eq_of_rip (h : Climbs p e c c') (hrip : c.rip = c'.rip) : c = c' := by
  cases h using Relation.ReflTransGen.head_induction_on with
  | refl => rfl
  | head hstep hrest =>
    have hle := Climbs.rip_le hrest
    have hlt := hstep.2
    omega

/-- The machine is deterministic: every state reached lies on the climb as long as
    the climb goes on to a state without a next one. -/
theorem Climbs.split (h : Climbs p e c c') (hlast : ∀ c₁, step p e c' ≠ some (.next c₁))
    (hreach : Reaches p e c c'') : Climbs p e c c'' ∧ Climbs p e c'' c' := by
  induction hreach with
  | refl => exact ⟨.refl, h⟩
  | tail _ hstep ih =>
    obtain ⟨hto, hfrom⟩ := ih
    cases hfrom using Relation.ReflTransGen.head_induction_on with
    | refl => exact absurd hstep (hlast _)
    | head hnext hrest =>
      have hsame := hnext.1.symm.trans hstep
      obtain rfl := outcome.next.inj (Option.some.inj hsame)
      exact ⟨hto.tail hnext, hrest⟩

theorem step_unique : Relator.RightUnique fun c c' => step p e c = some (.next c') := by
  intro a b d hb hd
  exact outcome.next.inj (Option.some.inj (hb.symm.trans hd))

/-- Such a run comes only once to each place. -/
theorem Climbs.same_rip {cₑ : cpu} (h : Climbs p e c cₑ)
    (hlast : ∀ c₁, step p e cₑ ≠ some (.next c₁)) (h' : Reaches p e c c') (h'' : Reaches p e c c'')
    (hrip : c'.rip = c''.rip) : c' = c'' := by
  obtain ⟨-, hfrom'⟩ := h.split hlast h'
  obtain ⟨-, hfrom''⟩ := h.split hlast h''
  rcases Relation.ReflTransGen.total_of_right_unique step_unique h' h'' with hgo | hgo
  · exact (hfrom'.split hlast hgo).1.eq_of_rip hrip
  · exact ((hfrom''.split hlast hgo).1.eq_of_rip hrip.symm).symm

/-- A run ends in one way. -/
theorem done_unique {d d' : cpu} (h' : Reaches p e c c') (h'' : Reaches p e c c'')
    (hdone : step p e c' = some (.done d)) (hdone' : step p e c'' = some (.done d')) : d = d' := by
  have hstop : ∀ {a b d₁ : cpu}, Reaches p e a b → step p e a = some (.done d₁) → a = b := by
    intro a b d₁ hreach hdone
    cases hreach using Relation.ReflTransGen.head_induction_on with
    | refl => rfl
    | head hstep _ =>
      rw [hdone] at hstep
      cases Option.some.inj hstep
  have hsame : c' = c'' := by
    rcases Relation.ReflTransGen.total_of_right_unique step_unique h' h'' with hgo | hgo
    · exact hstop hgo hdone
    · exact (hstop hgo hdone').symm
  subst hsame
  exact outcome.done.inj (Option.some.inj (hdone.symm.trans hdone'))

/-- The step at an instruction of the code. -/
theorem step_code {i : asm} (hcode : p.code = pre ++ encode i ++ post) (hrip : c.rip = pre.length) :
    step p e c = i.exec p e { c with rip := pre.length + (encode i).length } := by
  have hdrop : p.code.drop c.rip = encode i ++ post := by
    rw [hcode, hrip, List.append_assoc, List.drop_left]
  have hlen : p.code.length - post.length = pre.length + (encode i).length := by
    simp only [hcode, List.length_append]
    omega
  simp only [step, hdrop, decode_encode, Option.bind_eq_bind, Option.bind_some, hlen]

/-- The step at the head of a piece of code. -/
theorem step_head {i : asm} {rest : List UInt8} (hcode : p.code = pre ++ (encode i ++ rest) ++ post)
    (hrip : c.rip = pre.length) :
    step p e c = i.exec p e { c with rip := pre.length + (encode i).length } := by
  have hcode' : p.code = pre ++ encode i ++ (rest ++ post) := by
    rw [hcode]
    simp only [List.append_assoc]
  exact step_code hcode' hrip

/-- The bytes of a list of instructions. -/
def codes (is : List asm) : List UInt8 := is.flatMap encode

theorem codes_cons (i : asm) (is : List asm) : codes (i :: is) = encode i ++ codes is := rfl

/-- These instructions do not look at `rip`. -/
theorem apply_rip (i : asm) (n : Nat) :
    i.apply e { c with rip := n } = (i.apply e c).map fun c => { c with rip := n } := by
  cases i with
  | cmovnz dst src =>
    simp only [asm.apply]
    split <;> rfl
  | pop r =>
    simp only [asm.apply]
    cases c.stack <;> rfl
  | _ => rfl

theorem foldlM_rip (is : List asm) (n : Nat) : is.foldlM (asm.apply e) { c with rip := n } =
    (is.foldlM (asm.apply e) c).map fun c => { c with rip := n } := by
  induction is generalizing c with
  | nil => rfl
  | cons i is ih =>
    rw [List.foldlM_cons, List.foldlM_cons, apply_rip]
    cases i.apply e c with
    | none => rfl
    | some c₁ => exact ih

theorem exec_apply {i : asm} (h : i.apply e c = some c') : i.exec p e c = some (.next c') := by
  cases i with
  | jcc _ _ | lea_rip _ _ | ret | jmp _ => cases h
  | _ => exact congrArg (Option.map outcome.next) h

theorem encode_pos (i : asm) : 0 < (encode i).length := by
  rw [List.length_pos_iff]
  intro hnil
  have hdecode := decode_encode (t := []) i
  rw [hnil] at hdecode
  cases hdecode

/-- Straight-line code is run as a whole. -/
theorem climbs_apply {is : List asm} (hcode : p.code = pre ++ codes is ++ post)
    (hrip : c.rip = pre.length) (h : is.foldlM (asm.apply e) c = some c') :
    Climbs p e c { c' with rip := pre.length + (codes is).length } := by
  induction is generalizing pre c c' with
  | nil =>
    obtain rfl := Option.some.inj h
    rw [show ({ c with rip := pre.length + (codes []).length } : cpu) = c by
      simp [codes, ← hrip]]
    exact .refl
  | cons i is ih =>
    rw [List.foldlM_cons] at h
    obtain ⟨c₁, hi, his⟩ := Option.bind_eq_some_iff.mp h
    have hcode' : p.code = pre ++ encode i ++ (codes is ++ post) := by
      rw [hcode, codes_cons]
      simp only [List.append_assoc]
    have hstep : step p e c = some (.next { c₁ with rip := (pre ++ encode i).length }) := by
      rw [step_code hcode' hrip, List.length_append]
      refine exec_apply ?_
      rw [apply_rip, hi]
      rfl
    have hrest : is.foldlM (asm.apply e) { c₁ with rip := (pre ++ encode i).length } =
        some { c' with rip := (pre ++ encode i).length } := by
      rw [foldlM_rip, his]
      rfl
    have hnext : p.code = pre ++ encode i ++ codes is ++ post := by
      rw [hcode']
      simp only [List.append_assoc]
    have hend := ih hnext rfl hrest
    have hpos := encode_pos i
    refine .head ⟨hstep, by simp only [List.length_append]; omega⟩ ?_
    have hlen : pre.length + (codes (i :: is)).length =
        (pre ++ encode i).length + (codes is).length := by
      rw [codes_cons]
      simp only [List.length_append]
      omega
    rw [hlen]
    exact hend

/-! ## Pieces of code -/

/-- Wherever this piece of code lies, control goes through it from `c` to `c'`. -/
def Passes (p : program) (e : externals) (piece : List UInt8) (c c' : cpu) : Prop :=
  ∀ pre post, p.code = pre ++ piece ++ post →
    Climbs p e { c with rip := pre.length } { c' with rip := pre.length + piece.length }

/-- Wherever this piece of code lies, it gives control back from `c` with `Q`. -/
def Leaves (p : program) (e : externals) (piece : List UInt8) (c : cpu) (Q : cpu → Prop) : Prop :=
  ∀ pre post, p.code = pre ++ piece ++ post → ∃ c₁ c',
    Climbs p e { c with rip := pre.length } c₁ ∧ c₁.rip < pre.length + piece.length ∧
      step p e c₁ = some (.done c') ∧ Q c'

theorem passes_codes {is : List asm} (h : is.foldlM (asm.apply e) c = some c') :
    Passes p e (codes is) c c' := by
  intro pre post hcode
  have happly := foldlM_rip (e := e) (c := c) is pre.length
  rw [h, Option.map_some] at happly
  have := climbs_apply hcode rfl happly
  exact this

/-- A single instruction. -/
theorem passes_asm {i : asm} (h : i.apply e c = some c') : Passes p e (encode i) c c' := by
  intro pre post hcode
  refine .single ⟨?_, Nat.lt_add_of_pos_right (encode_pos i)⟩
  rw [step_code hcode rfl]
  refine exec_apply ?_
  rw [apply_rip, apply_rip, h]
  rfl

theorem Passes.append {a b : List UInt8} (ha : Passes p e a c c') (hb : Passes p e b c' c'') :
    Passes p e (a ++ b) c c'' := by
  intro pre post hcode
  have h₁ := ha pre (b ++ post) (by rw [hcode]; simp only [List.append_assoc])
  have h₂ := hb (pre ++ a) post (by rw [hcode]; simp only [List.append_assoc])
  rw [List.length_append] at h₂ ⊢
  rw [← Nat.add_assoc]
  exact h₁.trans h₂

theorem Passes.leaves {a b : List UInt8} {Q : cpu → Prop} (ha : Passes p e a c c')
    (hb : Leaves p e b c' Q) : Leaves p e (a ++ b) c Q := by
  intro pre post hcode
  have h₁ := ha pre (b ++ post) (by rw [hcode]; simp only [List.append_assoc])
  obtain ⟨c₁, c₂, h₂, hrip, hstep, hq⟩ :=
    hb (pre ++ a) post (by rw [hcode]; simp only [List.append_assoc])
  rw [List.length_append] at h₂ hrip
  rw [List.length_append, ← Nat.add_assoc]
  exact ⟨c₁, c₂, h₁.trans h₂, hrip, hstep, hq⟩

theorem leaves_ret {Q : cpu → Prop} (rest : List UInt8) (h : c.stack = [])
    (hq : ∀ n, Q { c with rip := n }) : Leaves p e (encode .ret ++ rest) c Q := by
  intro pre post hcode
  refine ⟨{ c with rip := pre.length }, { c with rip := pre.length + (encode .ret).length }, .refl,
    ?_, ?_, hq _⟩
  · have hpos := encode_pos .ret
    simp only [List.length_append]
    omega
  · rw [step_head hcode rfl]
    exact if_pos h

/-- A conditional jump that is not taken. -/
theorem passes_jcc {nz : Bool} {rel : BitVec 8} (h : c.zf = nz) :
    Passes p e (encode (.jcc nz rel)) c c := by
  intro pre post hcode
  refine .single ⟨?_, Nat.lt_add_of_pos_right (encode_pos _)⟩
  rw [step_code (i := .jcc nz rel) hcode rfl]
  exact congrArg (some ∘ outcome.next) (if_pos h)

/-- A conditional jump over a piece of code. -/
theorem passes_jcc_over {nz : Bool} {rel : BitVec 8} {piece : List UInt8} (h : c.zf ≠ nz)
    (hrel : rel.toInt = piece.length) : Passes p e (encode (.jcc nz rel) ++ piece) c c := by
  intro pre post hcode
  have hpos := encode_pos (.jcc nz rel)
  refine .single ⟨?_, by simp only [List.length_append]; omega⟩
  rw [step_head hcode rfl]
  refine (congrArg (some ∘ outcome.next) (if_neg h)).trans ?_
  have hrip : ((pre.length + (encode (.jcc nz rel)).length : Nat) + rel.toInt).toNat =
      pre.length + (encode (.jcc nz rel) ++ piece).length := by
    rw [hrel, List.length_append]
    omega
  simp only [Function.comp_apply, hrip]

/-- The address of the code is any number to the code that follows. -/
theorem leaves_lea {dst : Reg} {disp : BitVec 32} {rest : List UInt8} {Q : cpu → Prop}
    (h : ∀ v, Leaves p e rest (c.set dst v) Q) :
    Leaves p e (encode (.lea_rip dst disp) ++ rest) c Q := by
  intro pre post hcode
  obtain ⟨c₁, c₂, h₂, hrip, hstep, hq⟩ := h (BitVec.ofNat 64 (p.base + (pre.length +
    (encode (.lea_rip dst disp)).length)) + disp.signExtend 64) (pre ++ encode (.lea_rip dst disp))
    post (by rw [hcode]; simp only [List.append_assoc])
  have hpos := encode_pos (.lea_rip dst disp)
  rw [List.length_append] at hrip
  refine ⟨c₁, c₂, .head ⟨?_, ?_⟩ h₂, ?_, hstep, hq⟩
  · rw [step_head hcode rfl, List.length_append]
    rfl
  · simp only [List.length_append]
    omega
  · rwa [List.length_append, ← Nat.add_assoc]

/-! ## Code in pieces -/

/-- Where a piece starts. -/
def start (pieces : List (List UInt8)) (k : Nat) : Nat := (pieces.take k).flatten.length

section pieces

variable {pieces : List (List UInt8)} {I : Nat → cpu → Prop}

theorem start_succ {k : Nat} {piece : List UInt8} (h : pieces[k]? = some piece) :
    start pieces (k + 1) = start pieces k + piece.length := by
  rw [start, start, List.take_add_one, h, Option.toList_some, List.flatten_append,
    List.flatten_singleton, List.length_append]

/-- A piece in its place. -/
theorem flatten_at {k : Nat} {piece : List UInt8} (h : pieces[k]? = some piece) :
    pieces.flatten = (pieces.take k).flatten ++ piece ++ (pieces.drop (k + 1)).flatten := by
  obtain ⟨hk, rfl⟩ := List.getElem?_eq_some_iff.mp h
  rw [List.append_assoc, ← List.flatten_cons, ← List.drop_eq_getElem_cons hk,
    ← List.flatten_append, List.take_append_drop]

/-- Control goes from the start of a piece to the start of the next. -/
theorem Passes.climbs {k : Nat} {piece : List UInt8} (hpass : Passes p e piece c c')
    (hcode : p.code = pieces.flatten) (hpiece : pieces[k]? = some piece)
    (hrip : c.rip = start pieces k) :
    Climbs p e c { c' with rip := start pieces (k + 1) } := by
  have hgo := hpass _ _ (hcode.trans (flatten_at hpiece))
  rw [← start, ← start_succ hpiece, ← hrip] at hgo
  exact hgo

/-- What one piece does to the invariant: control goes through it, or it gives
    control back. -/
def Keeps (p : program) (e : externals) (I : Nat → cpu → Prop) (pieces : List (List UInt8))
    (k : Nat) (piece : List UInt8) (c : cpu) : Prop :=
  (∃ c', Passes p e piece c c' ∧ I (k + 1) { c' with rip := start pieces (k + 1) }) ∨
    ∃ Q, Leaves p e piece c Q

/-- Control comes to a piece, or has left the code before. -/
theorem arrives_or_left (hcode : p.code = pieces.flatten) (hrip : c.rip = 0) (hstart : I 0 c)
    (hkeeps : ∀ k piece c', pieces[k]? = some piece → Reaches p e c c' →
      c'.rip = start pieces k → I k c' → Keeps p e I pieces k piece c') :
    ∀ k ≤ pieces.length, (∃ c', Climbs p e c c' ∧ c'.rip = start pieces k ∧ I k c') ∨
      ∃ c' c₁, Climbs p e c c' ∧ c'.rip < start pieces k ∧ step p e c' = some (.done c₁) := by
  intro k
  induction k with
  | zero => exact fun _ => .inl ⟨c, .refl, hrip, hstart⟩
  | succ k ih =>
    intro hk
    obtain ⟨piece, hpiece⟩ : ∃ piece, pieces[k]? = some piece := ⟨_, List.getElem?_eq_getElem hk⟩
    have hsucc := start_succ hpiece
    rcases ih (Nat.le_of_succ_le hk) with ⟨c', hclimb, hrip', hI⟩ | ⟨c', c₁, hclimb, hlt, hdone⟩
    · rcases hkeeps k piece c' hpiece hclimb.reaches hrip' hI with ⟨c₁, hpass, hnext⟩ | ⟨Q, hleave⟩
      · exact .inl ⟨_, hclimb.trans (hpass.climbs hcode hpiece hrip'), rfl, hnext⟩
      · obtain ⟨c₁, c₂, hgo, hlt, hdone, -⟩ := hleave _ _ (hcode.trans (flatten_at hpiece))
        rw [← start, ← hrip'] at hgo
        rw [← start, ← hsucc] at hlt
        exact .inr ⟨c₁, c₂, hclimb.trans hgo, hlt, hdone⟩
    · exact .inr ⟨c', c₁, hclimb, by omega, hdone⟩

/-- The run comes to an end, and `rip` goes up until then. -/
theorem climbs_to_end (hcode : p.code = pieces.flatten) (hrip : c.rip = 0) (hstart : I 0 c)
    (hkeeps : ∀ k piece c', pieces[k]? = some piece → Reaches p e c c' →
      c'.rip = start pieces k → I k c' → Keeps p e I pieces k piece c') :
    ∃ c', Climbs p e c c' ∧ ∀ c₁, step p e c' ≠ some (.next c₁) := by
  rcases arrives_or_left hcode hrip hstart hkeeps pieces.length (Nat.le_refl _) with
    ⟨c', hclimb, hrip', -⟩ | ⟨c', c₁, hclimb, -, hdone⟩
  · refine ⟨c', hclimb, ?_⟩
    have hdrop : p.code.drop c'.rip = [] := by
      rw [hcode, hrip', start, List.take_length, List.drop_length]
    intro c₁
    rw [step, hdrop]
    exact fun h => by cases h
  · refine ⟨c', hclimb, fun c₂ h => ?_⟩
    rw [hdone] at h
    cases Option.some.inj h

/-- The rule for code in pieces: what holds at the start and is kept by every piece
    holds whenever control comes to the start of a piece. -/
theorem pieces_rule (hcode : p.code = pieces.flatten) (hrip : c.rip = 0) (hstart : I 0 c)
    (hkeeps : ∀ k piece c', pieces[k]? = some piece → Reaches p e c c' →
      c'.rip = start pieces k → I k c' → Keeps p e I pieces k piece c')
    {k : Nat} (hk : k ≤ pieces.length) (hreach : Reaches p e c c') (hat : c'.rip = start pieces k) :
    I k c' := by
  rcases arrives_or_left hcode hrip hstart hkeeps k hk with
    ⟨c₁, hclimb, hrip₁, hI⟩ | ⟨c₁, c₂, hclimb, hlt, hdone⟩
  · obtain ⟨cₑ, hclimbₑ, hlast⟩ := climbs_to_end hcode hrip hstart hkeeps
    have hsame := hclimbₑ.same_rip hlast hreach hclimb.reaches (hat.trans hrip₁.symm)
    rwa [hsame]
  · have hlast : ∀ c₃, step p e c₁ ≠ some (.next c₃) := by
      intro c₃ h
      rw [hdone] at h
      cases Option.some.inj h
    have hle := (hclimb.split hlast hreach).2.rip_le
    omega

end pieces

end runs

end X86
