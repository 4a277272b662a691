import Mathlib.Data.List.Basic
import Mathlib.Tactic.Common
import Mathlib.Tactic.Ring

/-! # Byte memories

    A memory gives a byte for each address. Blocks of bytes are read and written
    whole, and numbers are kept in little-endian order.

    * `read`, `write`: a block of bytes.
    * `load`, `store`: a number of `n` bytes.

    The lemmas come in pairs: what a write leaves at its own place, and that it
    changes nothing elsewhere.
-/

namespace Bytes

/-- A byte for each address. -/
def Mem : Type := Nat → UInt8

/-! ## Blocks -/

/-- The `n` bytes from `a` on. -/
def Mem.read (m : Mem) (a n : Nat) : List UInt8 := (List.range n).map fun i => m (a + i)

/-- Put the block `bs` at `a`. -/
def Mem.write (m : Mem) (a : Nat) (bs : List UInt8) : Mem :=
  fun x => if a ≤ x then (bs[x - a]?).getD (m x) else m x

@[simp] theorem Mem.length_read (m : Mem) (a n : Nat) : (m.read a n).length = n := by
  simp [Mem.read]

theorem Mem.read_congr {m m' : Mem} {a n : Nat} (h : ∀ x, a ≤ x → x < a + n → m x = m' x) :
    m.read a n = m'.read a n := by
  unfold Mem.read
  refine List.map_congr_left fun i hi => ?_
  have := List.mem_range.mp hi
  exact h (a + i) (by omega) (by omega)

theorem Mem.getElem?_read {m : Mem} {a n i : Nat} (h : i < n) :
    (m.read a n)[i]? = some (m (a + i)) := by
  simp [Mem.read, h]

/-- Equal blocks have equal bytes. -/
theorem Mem.eq_of_read_eq {m m' : Mem} {a n x : Nat} (h : m.read a n = m'.read a n) (hx : a ≤ x)
    (hx' : x < a + n) : m x = m' x := by
  have hl := Mem.getElem?_read (m := m) (a := a) (show x - a < n by omega)
  have hr := Mem.getElem?_read (m := m') (a := a) (show x - a < n by omega)
  rw [h, hr] at hl
  have := Option.some.inj hl
  rwa [show a + (x - a) = x by omega, eq_comm] at this

theorem Mem.write_apart {m : Mem} {a x : Nat} {bs : List UInt8}
    (h : x < a ∨ a + bs.length ≤ x) : m.write a bs x = m x := by
  unfold Mem.write
  split_ifs with hx
  · rw [List.getElem?_eq_none (by omega)]
    rfl
  · rfl

theorem Mem.read_write (m : Mem) (a : Nat) (bs : List UInt8) :
    (m.write a bs).read a bs.length = bs := by
  apply List.ext_getElem?
  intro i
  by_cases hi : i < bs.length
  · simp [Mem.read, Mem.write, hi]
  · rw [List.getElem?_eq_none (by simp; omega), List.getElem?_eq_none (by omega)]

theorem Mem.read_write_apart {m : Mem} {a b n : Nat} {bs : List UInt8}
    (h : b + n ≤ a ∨ a + bs.length ≤ b) : (m.write a bs).read b n = m.read b n :=
  Mem.read_congr fun _ _ _ => Mem.write_apart (by omega)

/-- Writes to places apart from each other can be done in any order. -/
theorem Mem.write_comm {m : Mem} {a b : Nat} {bs cs : List UInt8}
    (h : a + bs.length ≤ b ∨ b + cs.length ≤ a) :
    (m.write a bs).write b cs = (m.write b cs).write a bs := by
  funext x
  by_cases hb : b ≤ x ∧ x < b + cs.length
  · rw [Mem.write_apart (m := m.write b cs) (by omega)]
    simp [Mem.write, hb.1, List.getElem?_eq_getElem (show x - b < cs.length by omega)]
  · rw [Mem.write_apart (m := m.write a bs) (by omega)]
    by_cases ha : a ≤ x ∧ x < a + bs.length
    · simp [Mem.write, ha.1, List.getElem?_eq_getElem (show x - a < bs.length by omega)]
    · rw [Mem.write_apart (by omega), Mem.write_apart (by omega), Mem.write_apart (by omega)]

/-- A block is read in two parts. -/
theorem Mem.read_add (m : Mem) (a n k : Nat) :
    m.read a (n + k) = m.read a n ++ m.read (a + n) k := by
  simp [Mem.read, List.range_add, Nat.add_assoc]

/-- A part of a block that was read whole. -/
theorem Mem.read_part {m : Mem} {a n : Nat} (pre mid post : List UInt8)
    (h : m.read a n = pre ++ (mid ++ post)) : m.read (a + pre.length) mid.length = mid := by
  have hn : n = pre.length + (mid.length + post.length) := by
    have := congrArg List.length h
    simpa using this
  rw [hn, Mem.read_add, Mem.read_add] at h
  have h' := List.append_inj_right h (by simp)
  exact List.append_inj_left h' (by simp)

theorem Mem.write_nil (m : Mem) (a : Nat) : m.write a [] = m := by
  funext x
  exact Mem.write_apart (by simp; omega)

/-- Two blocks that follow one another. -/
theorem Mem.write_append (m : Mem) (a : Nat) (bs cs : List UInt8) :
    (m.write a bs).write (a + bs.length) cs = m.write a (bs ++ cs) := by
  funext x
  by_cases hx : a + bs.length ≤ x
  · have hbs : m.write a bs x = m x := Mem.write_apart (.inr hx)
    simp only [Mem.write, if_pos hx, if_pos (show a ≤ x by omega)] at hbs ⊢
    rw [hbs, List.getElem?_append_right (by omega), Nat.sub_add_eq]
  · rw [Mem.write_apart (.inl (by omega))]
    by_cases ha : a ≤ x
    · simp only [Mem.write, if_pos ha, List.getElem?_append_left (show x - a < bs.length by omega)]
    · simp only [Mem.write, if_neg ha]

/-! ## Little-endian numbers -/

/-- The `n` low bytes of `v`, the lowest first. -/
def le : Nat → Nat → List UInt8
  | 0, _ => []
  | n + 1, v => UInt8.ofNat v :: le n (v / 256)

/-- The number that a block of bytes stands for. -/
def ofLE : List UInt8 → Nat
  | [] => 0
  | b :: bs => b.toNat + 256 * ofLE bs

@[simp] theorem length_le (n v : Nat) : (le n v).length = n := by
  induction n generalizing v with
  | zero => rfl
  | succ n ih => simp [le, ih]

theorem ofLE_le (n v : Nat) : ofLE (le n v) = v % 256 ^ n := by
  induction n generalizing v with
  | zero => simp [le, ofLE, Nat.mod_one]
  | succ n ih =>
    rw [le, ofLE, ih, Nat.pow_succ', Nat.mod_mul]
    simp

/-- The bytes of a number are those of its low part. -/
theorem le_mod (n v : Nat) : le n (v % 256 ^ n) = le n v := by
  induction n generalizing v with
  | zero => rfl
  | succ n ih =>
    have hdiv : v % 256 ^ (n + 1) / 256 = v / 256 % 256 ^ n := by
      rw [Nat.pow_succ', Nat.mod_mul_right_div_self]
    have hbyte : UInt8.ofNat (v % 256 ^ (n + 1)) = UInt8.ofNat v := by
      apply UInt8.toNat_inj.mp
      rw [UInt8.toNat_ofNat', UInt8.toNat_ofNat']
      exact Nat.mod_mod_of_dvd v (Nat.dvd_of_pow_dvd (Nat.succ_pos n) (Nat.dvd_refl _))
    rw [le, le, hdiv, ih, hbyte]

theorem ofLE_lt (bs : List UInt8) : ofLE bs < 256 ^ bs.length := by
  induction bs with
  | nil => simp [ofLE]
  | cons b bs ih =>
    have hb := b.toNat_lt
    rw [ofLE, List.length_cons, Nat.pow_succ]
    omega

theorem le_ofLE (bs : List UInt8) : le bs.length (ofLE bs) = bs := by
  induction bs with
  | nil => rfl
  | cons b bs ih =>
    have hb := b.toNat_lt
    have hbyte : UInt8.ofNat (b.toNat + 256 * ofLE bs) = b := by
      apply UInt8.toNat_inj.mp
      rw [UInt8.toNat_ofNat', Nat.add_mul_mod_self_left]
      exact Nat.mod_eq_of_lt hb
    have hdiv : (b.toNat + 256 * ofLE bs) / 256 = ofLE bs := by omega
    rw [List.length_cons, ofLE, le, hbyte, hdiv, ih]

theorem ofLE_append (bs cs : List UInt8) : ofLE (bs ++ cs) = ofLE bs + 256 ^ bs.length * ofLE cs := by
  induction bs with
  | nil => simp [ofLE]
  | cons b bs ih =>
    rw [List.cons_append, ofLE, ofLE, ih, List.length_cons, Nat.pow_succ']
    ring

/-- The low bytes of a number and those above them. -/
theorem le_add (n k v : Nat) : le (n + k) v = le n v ++ le k (v / 256 ^ n) := by
  induction n generalizing v with
  | zero => simp [le]
  | succ n ih =>
    rw [Nat.succ_add, le, le, ih, List.cons_append, Nat.div_div_eq_div_mul, ← Nat.pow_succ']

theorem take_le {n k : Nat} (h : k ≤ n) (v : Nat) : (le n v).take k = le k v := by
  rw [← Nat.add_sub_cancel' h, le_add]
  exact List.take_left' (length_le _ _)

/-! ## Numbers that are read in a wrong place -/

/-- The number of `k` bytes from the `j`th of them on. -/
theorem ofLE_shifted {k j v : Nat} (hj : j ≤ k) (hv : v < 256 ^ k) (others : List UInt8) :
    ofLE (((le k v ++ others).drop j).take k) = v / 256 ^ j + 256 ^ (k - j) * ofLE (others.take j) := by
  have hle : le k v = le j v ++ le (k - j) (v / 256 ^ j) := by
    rw [← le_add, Nat.add_sub_cancel' hj]
  have hdrop : (le k v ++ others).drop j = le (k - j) (v / 256 ^ j) ++ others := by
    rw [hle, List.append_assoc, List.drop_left' (length_le _ _)]
  have htake : (le (k - j) (v / 256 ^ j) ++ others).take k =
      le (k - j) (v / 256 ^ j) ++ others.take j := by
    rw [List.take_append, length_le, List.take_of_length_le (by rw [length_le]; omega),
      Nat.sub_sub_self hj]
  have hlt : v / 256 ^ j < 256 ^ (k - j) := by
    rw [Nat.div_lt_iff_lt_mul (Nat.pow_pos (by decide)), ← Nat.pow_add, Nat.sub_add_cancel hj]
    exact hv
  rw [hdrop, htake, ofLE_append, ofLE_le, Nat.mod_eq_of_lt hlt, length_le]

/-- The number behind a padding. -/
theorem ofLE_padded {k v : Nat} {pad : List UInt8} (hpad : pad.length ≤ k) (others : List UInt8) :
    ofLE ((pad ++ (le k v ++ others)).take k) =
      ofLE pad + 256 ^ pad.length * (v % 256 ^ (k - pad.length)) := by
  have hle : le k v = le (k - pad.length) v ++ le pad.length (v / 256 ^ (k - pad.length)) := by
    rw [← le_add, Nat.sub_add_cancel hpad]
  rw [List.take_append, List.take_of_length_le hpad, hle, List.append_assoc,
    List.take_left' (length_le _ _), ofLE_append, ofLE_le]

/-- What the padding has pushed out of the number. -/
theorem drop_padded {k v : Nat} {pad : List UInt8} (hpad : pad.length ≤ k) (others : List UInt8) :
    (pad ++ (le k v ++ others)).drop k = le pad.length (v / 256 ^ (k - pad.length)) ++ others := by
  have hle : le k v = le (k - pad.length) v ++ le pad.length (v / 256 ^ (k - pad.length)) := by
    rw [← le_add, Nat.sub_add_cancel hpad]
  rw [List.drop_append, List.drop_of_length_le hpad, hle, List.append_assoc, List.nil_append,
    List.drop_left' (length_le _ _)]

/-! ## Numbers in memory -/

/-- The number of `n` bytes at `a`. -/
def Mem.load (m : Mem) (a n : Nat) : Nat := ofLE (m.read a n)

/-- Put the `n` low bytes of `v` at `a`. -/
def Mem.store (m : Mem) (a n v : Nat) : Mem := m.write a (le n v)

theorem Mem.load_lt (m : Mem) (a n : Nat) : m.load a n < 256 ^ n := by
  have := ofLE_lt (m.read a n)
  rwa [Mem.length_read] at this

theorem Mem.load_store (m : Mem) (a n v : Nat) : (m.store a n v).load a n = v % 256 ^ n := by
  have := m.read_write a (le n v)
  rw [length_le] at this
  rw [Mem.load, Mem.store, this, ofLE_le]

theorem Mem.load_store_apart {m : Mem} {a b n k v : Nat} (h : b + k ≤ a ∨ a + n ≤ b) :
    (m.store a n v).load b k = m.load b k := by
  rw [Mem.load, Mem.store, Mem.read_write_apart (by simpa using h), Mem.load]

end Bytes
