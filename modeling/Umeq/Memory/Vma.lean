import Umeq.Lib.Intervals

/-! # The shadow address map: descriptors and `insert_area`

    `mmap_common.c` records what the guest has mapped in `vma_list`, a linked
    list of descriptors in address order. This module embeds the descriptor
    list and the one function that rewrites it.

    A pointer into `vma_list` is modelled by the position of the descriptor in
    the list, so `first == last` compares positions. A result `none` is the
    `fatal` branch of `find_address_owner`, or the dereference of the null
    pointer at the end of the list. The free list is counted and not stored:
    an update says how many descriptors it takes from it and gives back.
-/

namespace Umeq.Memory

open Intervals

/-! ## Descriptors -/

/-- `enum vma_type` of the descriptors in `vma_list`. The third constant of the
    source, `VMA_UNMAP_ONGOING`, only tags descriptors of `ongoing_vma_list`. -/
inductive vma_type where
  | VMA_UNMAP
  | VMA_MAP
  deriving DecidableEq, Repr

/-- The expression `1 - type` of the source. -/
def vma_type.other : vma_type → vma_type
  | .VMA_UNMAP => .VMA_MAP
  | .VMA_MAP => .VMA_UNMAP

theorem vma_type.eq_other_iff (t t' : vma_type) : t = t'.other ↔ t ≠ t' := by
  cases t <;> cases t' <;> decide

@[simp] theorem vma_type.ne_other (t : vma_type) : t ≠ t.other := by
  cases t <;> decide

@[simp] theorem vma_type.other_ne (t : vma_type) : t.other ≠ t := by
  cases t <;> decide

/-- `struct vma_desc`: the area `[start_addr, end_addr[` has type `type`. -/
structure vma_desc where
  type : vma_type
  start_addr : Nat
  end_addr : Nat
  deriving DecidableEq, Repr

/-- The descriptor is the one that holds `addr`. -/
def owns (addr : Nat) (desc : vma_desc) : Bool :=
  decide (addr ≥ desc.start_addr ∧ addr < desc.end_addr)

/-- Position of the first descriptor that owns `addr`. -/
def find_address_owner_without_assert (vma_list : List vma_desc) (addr : Nat) : Option Nat :=
  vma_list.findIdx? (owns addr)

/-- As above; `none` is now the `fatal` branch. -/
def find_address_owner (vma_list : List vma_desc) (addr : Nat) : Option Nat :=
  find_address_owner_without_assert vma_list addr

/-! ## Insertion of an area -/

/-- The list after an update, with the number of descriptors taken from
    `free_vma_list` and then put back on it. -/
structure area_update where
  vma_list : List vma_desc
  taken : Nat
  released : Nat
  deriving DecidableEq, Repr

/-- State of the walk from `first` to `last`: the descriptors left in place
    before `current_mapped`, and `current_mapped` itself. -/
structure span where
  kept : List vma_desc
  current_mapped : vma_desc
  taken : Nat
  released : Nat
  deriving DecidableEq, Repr

/-- The walk once `current_mapped` is set: every descriptor up to `last` is
    absorbed by it. `pos` is the position of the head of the list. -/
def absorb (last : Nat) : Nat → vma_desc → List vma_desc → Option (vma_desc × Nat)
  | _, _, [] => none
  | pos, current_mapped, current :: next =>
    if pos = last then some (current_mapped, 0)
    else do
      let (m, n) ← absorb last (pos + 1) { current_mapped with end_addr := current.end_addr } next
      some (m, n + 1)

/-- The `while(current != last)` loop of `insert_area`, entered at `first ≠ last`
    with `current_mapped` null: its first round either shrinks `first` and takes
    a new descriptor, or goes on with `first` itself. -/
def walk (start_addr : Nat) (type : vma_type) (last pos : Nat) : List vma_desc → Option span
  | [] => none
  | current :: next =>
    if current.type = type.other then do
      let (m, n) ← absorb last (pos + 1) ⟨type, start_addr, current.end_addr⟩ next
      some ⟨[{ current with end_addr := start_addr }], m, 1, n⟩
    else do
      let (m, n) ← absorb last (pos + 1) current next
      some ⟨[], m, 0, n⟩

/-- What becomes of `last` once the walk has reached it. -/
def close_span (end_addr : Nat) (type : vma_type) (last : vma_desc) (s : span) : area_update :=
  if last.type = type.other then
    if last.start_addr ≠ end_addr then
      ⟨s.kept ++ [{ s.current_mapped with end_addr := end_addr },
        { last with start_addr := end_addr }], s.taken, s.released⟩
    else
      ⟨s.kept ++ [s.current_mapped, last], s.taken, s.released⟩
  else
    ⟨s.kept ++ [{ s.current_mapped with end_addr := last.end_addr }], s.taken, s.released + 1⟩

/-- The block at the end of `insert_area` ("fixup this bad algo that can forget
    to merge prev block"). -/
def merge_prev (start_addr : Nat) (type : vma_type) (u : area_update) : Option area_update := do
  let first ← find_address_owner u.vma_list start_addr
  match first with
  | 0 => some u
  | p + 1 =>
    let prev ← u.vma_list[p]?
    let desc ← u.vma_list[p + 1]?
    if prev.type = type then
      some ⟨u.vma_list.take p ++ { prev with end_addr := desc.end_addr } :: u.vma_list.drop (p + 2),
        u.taken, u.released + 1⟩
    else some u

/-- The rewriting of the list before `merge_prev`, or `none` for the early
    return of the case in which the area already has the wanted type. -/
def split_area (vma_list : List vma_desc) (start_addr end_addr : Nat) (type : vma_type)
    (first last : Nat) (f l : vma_desc) : Option (Option area_update) :=
  if first = last then
    if f.type = type then some none
    else if f.start_addr = start_addr then
      some (some ⟨vma_list.take first ++
        ⟨type, start_addr, end_addr⟩ :: { f with start_addr := end_addr } ::
          vma_list.drop (first + 1), 1, 0⟩)
    else
      some (some ⟨vma_list.take first ++
        { f with end_addr := start_addr } :: ⟨type, start_addr, end_addr⟩ ::
          ⟨type.other, end_addr, f.end_addr⟩ :: vma_list.drop (first + 1), 2, 0⟩)
  else do
    let s ← walk start_addr type last first (vma_list.drop first)
    let u := close_span end_addr type l s
    some (some { u with
      vma_list := vma_list.take first ++ u.vma_list ++ vma_list.drop (last + 1) })

/-- `insert_area`: give `[start_addr, end_addr[` the type `type`. -/
def insert_area (vma_list : List vma_desc) (start_addr end_addr : Nat) (type : vma_type) :
    Option area_update := do
  let first ← find_address_owner vma_list start_addr
  let last ← find_address_owner vma_list end_addr
  let f ← vma_list[first]?
  let l ← vma_list[last]?
  match ← split_area vma_list start_addr end_addr type first last f l with
  | none => some ⟨vma_list, 0, 0⟩
  | some u => merge_prev start_addr type u

/-- `insert_map_area`. -/
def insert_map_area (vma_list : List vma_desc) (start_addr end_addr : Nat) : Option area_update :=
  insert_area vma_list start_addr end_addr .VMA_MAP

/-- `insert_unmap_area`. -/
def insert_unmap_area (vma_list : List vma_desc) (start_addr end_addr : Nat) : Option area_update :=
  insert_area vma_list start_addr end_addr .VMA_UNMAP

end Umeq.Memory
