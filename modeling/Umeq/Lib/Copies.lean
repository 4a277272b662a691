import Umeq.Lib.Bytes

/-! # Copies between two memories

    A frame holds whatever it held before, some blocks are written to it, and then a list
    of assignments copies parts of it to a second memory.

    * `known`: the byte that the blocks leave at a place of the frame, if any.
    * `origin`: where a byte of the second memory comes from.
    * `independent_iff`: the second memory does not depend on what the frame held before.
    * `unchanged_iff`: the second memory stays as it is.

    Both conditions speak of the last assignment to each byte only, so assignments may
    overlap. Where they go to places one behind the other, `forall_origin_iff` speaks of each
    byte of each assignment.
-/

namespace Bytes

/-! ## Blocks written to a frame -/

/-- The same byte everywhere. -/
def Mem.filled (b : UInt8) : Mem := fun _ => b

/-- Write blocks one after another. -/
def Mem.writes (m : Mem) (ws : List (Nat × List UInt8)) : Mem :=
  ws.foldl (fun m w => m.write w.1 w.2) m

/-- The byte that blocks leave at a place. -/
def known : List (Nat × List UInt8) → Nat → Option UInt8
  | [], _ => none
  | w :: ws, a => (known ws a).or (if w.1 ≤ a then w.2[a - w.1]? else none)

/-- These bytes are at a place. -/
def Holds (ws : List (Nat × List UInt8)) (a : Nat) (bs : List UInt8) : Prop :=
  ∀ i, i < bs.length → known ws (a + i) = bs[i]?

theorem Mem.writes_apply (m : Mem) (ws : List (Nat × List UInt8)) (a : Nat) :
    m.writes ws a = (known ws a).getD (m a) := by
  induction ws generalizing m with
  | nil => rfl
  | cons w ws ih =>
    have hw : m.write w.1 w.2 a = (if w.1 ≤ a then w.2[a - w.1]? else none).getD (m a) := by
      unfold Mem.write
      split_ifs <;> rfl
    show (m.write w.1 w.2).writes ws a = _
    rw [ih, hw, known]
    cases known ws a <;> rfl

theorem known_append (ws vs : List (Nat × List UInt8)) (a : Nat) :
    known (ws ++ vs) a = (known vs a).or (known ws a) := by
  induction ws with
  | nil => simp [known]
  | cons w ws ih => rw [List.cons_append, known, ih, known, Option.or_assoc]

/-- What is assigned: a number of the frame, of so many bytes, or a given one. -/
inductive Value where
  | field (a n : Nat)
  | const (v : Nat)
  deriving DecidableEq

def Value.get (frame : Mem) : Value → Nat
  | .field a n => frame.load a n
  | .const v => v

/-- An assignment of the `size` low bytes of a value to `dst`. A number of the frame is not
    shorter than the place that it goes to. -/
structure Copy where
  dst : Nat
  size : Nat
  value : Value
  fits : ∀ a n, value = .field a n → size ≤ n

def Copy.exec (frame mem : Mem) (c : Copy) : Mem := mem.store c.dst c.size (c.value.get frame)

/-- Assignments one after another. -/
def copyAll (frame mem : Mem) (cs : List Copy) : Mem := cs.foldl (Copy.exec frame) mem

/-- Where a byte comes from: a place of the frame, or it is given. -/
inductive Origin where
  | byte (a : Nat)
  | const (b : UInt8)
  deriving DecidableEq

def Origin.get (frame : Mem) : Origin → UInt8
  | .byte a => frame a
  | .const b => b

/-- The byte that blocks leave at an origin. -/
def Origin.known (ws : List (Nat × List UInt8)) : Origin → Option UInt8
  | .byte a => Bytes.known ws a
  | .const b => some b

/-- Byte `i` of a value. -/
def Value.byte (i : Nat) : Value → Origin
  | .field a _ => .byte (a + i)
  | .const v => .const (UInt8.ofNat (v / 256 ^ i))

def Copy.origin (c : Copy) (x : Nat) : Option Origin :=
  if c.dst ≤ x ∧ x < c.dst + c.size then some (c.value.byte (x - c.dst)) else none

/-- Where assignments take the byte from that they leave at `x`. -/
def origin : List Copy → Nat → Option Origin
  | [], _ => none
  | c :: cs, x => (origin cs x).or (c.origin x)

theorem origin_isSome {cs : List Copy} {c : Copy} (hc : c ∈ cs) {x : Nat} (hx : c.dst ≤ x)
    (hx' : x < c.dst + c.size) : (origin cs x).isSome := by
  induction cs with
  | nil => simp at hc
  | cons d cs ih =>
    rw [origin, Option.isSome_or]
    obtain rfl | hc := List.mem_cons.mp hc
    · simp [Copy.origin, hx, hx']
    · rw [ih hc]
      rfl

theorem origin_cases {cs : List Copy} {x : Nat} {o : Origin} (h : origin cs x = some o) :
    ∃ c ∈ cs, ∃ i < c.size, x = c.dst + i ∧ o = c.value.byte i := by
  induction cs with
  | nil => simp [origin] at h
  | cons c cs ih =>
    rw [origin, Option.or_eq_some_iff] at h
    obtain hrest | ⟨-, hhead⟩ := h
    · obtain ⟨d, hd, hbyte⟩ := ih hrest
      exact ⟨d, List.mem_cons_of_mem _ hd, hbyte⟩
    · unfold Copy.origin at hhead
      split_ifs at hhead with hx
      exact ⟨c, List.mem_cons_self, x - c.dst, by omega, by omega, (Option.some.inj hhead).symm⟩

theorem origin_eq_none_iff {cs : List Copy} {x : Nat} :
    origin cs x = none ↔ ∀ c ∈ cs, ¬ (c.dst ≤ x ∧ x < c.dst + c.size) := by
  constructor
  · intro h c hc hx
    have := origin_isSome hc hx.1 hx.2
    simp [h] at this
  · intro h
    by_contra hne
    obtain ⟨o, ho⟩ := Option.ne_none_iff_exists'.mp hne
    obtain ⟨c, hc, i, hi, rfl, -⟩ := origin_cases ho
    exact h c hc (by omega)

def InOrder (cs : List Copy) : Prop := cs.Pairwise fun c d => c.dst + c.size ≤ d.dst

/-- No assignment is undone by another one. -/
theorem origin_of_mem {cs : List Copy} (h : InOrder cs) {c : Copy} (hc : c ∈ cs) {i : Nat}
    (hi : i < c.size) : origin cs (c.dst + i) = some (c.value.byte i) := by
  induction cs with
  | nil => simp at hc
  | cons d ds ih =>
    obtain ⟨hd, hds⟩ := List.pairwise_cons.mp h
    rw [origin]
    obtain rfl | hc := List.mem_cons.mp hc
    · have hrest : origin ds (c.dst + i) = none := origin_eq_none_iff.mpr fun e he => by
        have := hd e he
        omega
      have hin : c.dst ≤ c.dst + i ∧ c.dst + i < c.dst + c.size := by omega
      rw [hrest, Option.none_or, Copy.origin, if_pos hin, Nat.add_sub_cancel_left]
    · rw [ih hds hc, Option.some_or]

theorem forall_origin_iff {cs : List Copy} (h : InOrder cs) (P : Nat → Origin → Prop) :
    (∀ x o, origin cs x = some o → P x o) ↔ ∀ c ∈ cs, ∀ i < c.size, P (c.dst + i) (c.value.byte i) := by
  constructor
  · intro hP c hc i hi
    exact hP _ _ (origin_of_mem h hc hi)
  · intro hP x o ho
    obtain ⟨c, hc, i, hi, rfl, rfl⟩ := origin_cases ho
    exact hP c hc i hi

section bytes

variable {frame mem : Mem}

theorem getElem?_le {n i : Nat} (v : Nat) (hi : i < n) :
    (le n v)[i]? = some (UInt8.ofNat (v / 256 ^ i)) := by
  induction n generalizing v i with
  | zero => omega
  | succ n ih =>
    cases i with
    | zero => simp [le]
    | succ i =>
      rw [le, List.getElem?_cons_succ, ih _ (by omega), Nat.div_div_eq_div_mul, Nat.pow_succ']

/-- The bytes of a number are those that it was read from. -/
theorem ofNat_ofLE {bs : List UInt8} {i : Nat} (hi : i < bs.length) :
    UInt8.ofNat (ofLE bs / 256 ^ i) = bs.get ⟨i, hi⟩ := by
  induction bs generalizing i with
  | nil => simp at hi
  | cons b bs ih =>
    have hb := b.toNat_lt
    cases i with
    | zero =>
      apply UInt8.toNat_inj.mp
      rw [UInt8.toNat_ofNat', Nat.pow_zero, Nat.div_one, ofLE]
      simp only [List.get_eq_getElem, List.getElem_cons_zero]
      omega
    | succ i =>
      have hdiv : ofLE (b :: bs) / 256 = ofLE bs := by
        rw [ofLE]
        omega
      rw [Nat.pow_succ', ← Nat.div_div_eq_div_mul, hdiv, ih (by simpa using hi)]
      rfl

theorem Value.ofNat_get {v : Value} {i : Nat} (h : ∀ a n, v = .field a n → i < n) :
    UInt8.ofNat (v.get frame / 256 ^ i) = (v.byte i).get frame := by
  cases v with
  | const v => rfl
  | field a n =>
    have hi := h a n rfl
    have hlen : i < (frame.read a n).length := by simpa using hi
    have hget : (frame.read a n)[i]? = some ((frame.read a n).get ⟨i, hlen⟩) :=
      List.getElem?_eq_getElem hlen
    rw [Mem.getElem?_read hi] at hget
    rw [Value.get, Mem.load, ofNat_ofLE hlen, ← Option.some.inj hget]
    rfl

theorem Copy.exec_apply (c : Copy) (x : Nat) :
    c.exec frame mem x = ((c.origin x).map (Origin.get frame)).getD (mem x) := by
  unfold Copy.exec Copy.origin Mem.store
  split_ifs with hx
  · have hi : x - c.dst < c.size := by omega
    rw [Option.map_some, Option.getD_some, ← Value.ofNat_get fun a n h => Nat.lt_of_lt_of_le hi (c.fits a n h)]
    unfold Mem.write
    rw [if_pos hx.1, getElem?_le _ hi]
    rfl
  · exact Mem.write_apart (by rw [length_le]; omega)

theorem copyAll_apply (cs : List Copy) (mem : Mem) (x : Nat) :
    copyAll frame mem cs x = ((origin cs x).map (Origin.get frame)).getD (mem x) := by
  induction cs generalizing mem with
  | nil => rfl
  | cons c cs ih =>
    show copyAll frame (c.exec frame mem) cs x = _
    rw [ih, Copy.exec_apply, origin]
    cases origin cs x <;> rfl

end bytes

/-! ## What the copies depend on -/

section depend

variable {mem : Mem} {ws : List (Nat × List UInt8)} {cs : List Copy}

/-- A place that no block was written to has what was there before. -/
theorem Origin.get_writes (m : Mem) (o : Origin) :
    o.get (m.writes ws) = (o.known ws).getD (o.get m) := by
  cases o with
  | byte a => exact m.writes_apply ws a
  | const b => rfl

/-- An origin that is not known can be any byte. -/
theorem Origin.any {o : Origin} (h : o.known ws = none) (b : UInt8) :
    o.get ((Mem.filled b).writes ws) = b := by
  cases o with
  | byte a =>
    rw [Origin.get_writes, h]
    rfl
  | const c => simp [Origin.known] at h

/-- The copies are the same whatever the frame held before exactly when each byte that they
    leave was written to the frame. -/
theorem independent_iff :
    (∀ m m' : Mem, copyAll (m.writes ws) mem cs = copyAll (m'.writes ws) mem cs) ↔
      ∀ x o, origin cs x = some o → (o.known ws).isSome := by
  constructor
  · intro h x o ho
    rcases hk : o.known ws with _ | b
    · -- two frames that differ everywhere
      have hx := congrFun (h (Mem.filled 0) (Mem.filled 1)) x
      simp only [copyAll_apply, ho, Option.map_some, Option.getD_some, Origin.any hk] at hx
      exact absurd hx (by decide)
    · rfl
  · intro h m m'
    funext x
    rw [copyAll_apply, copyAll_apply]
    rcases ho : origin cs x with _ | o
    · rfl
    · obtain ⟨b, hb⟩ := Option.isSome_iff_exists.mp (h x o ho)
      simp only [Option.map_some, Option.getD_some, Origin.get_writes, hb]

/-- The copies change nothing, whatever the frame held before, exactly when each byte that
    they leave was written to the frame and is the one that was there. -/
theorem unchanged_iff :
    (∀ m : Mem, copyAll (m.writes ws) mem cs = mem) ↔
      ∀ x o, origin cs x = some o → o.known ws = some (mem x) := by
  constructor
  · intro h x o ho
    rcases hk : o.known ws with _ | b
    · have hx := congrFun (h (Mem.filled (mem x + 1))) x
      simp only [copyAll_apply, ho, Option.map_some, Option.getD_some, Origin.any hk] at hx
      exact absurd hx (by simp)
    · have hx := congrFun (h (Mem.filled 0)) x
      simp only [copyAll_apply, ho, Option.map_some, Option.getD_some, Origin.get_writes, hk] at hx
      exact congrArg some hx
  · intro h m
    funext x
    rw [copyAll_apply]
    rcases ho : origin cs x with _ | o
    · rfl
    · simp only [Option.map_some, Option.getD_some, Origin.get_writes, h x o ho]

end depend

end Bytes
