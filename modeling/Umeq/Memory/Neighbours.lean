import Umeq.Memory.InsertArea
import Mathlib.Data.List.Chain

/-! # What `insert_area` keeps between neighbouring descriptors

    The queries look at one descriptor only, so they need a relation between each
    descriptor and the next one. `insert_area` rewrites the list in few ways, and
    `Compatible` says what a relation must allow to survive all of them.
-/

namespace Umeq.Memory

open Intervals

/-! ## Relations that survive -/

/-- What the rewritings of `insert_area` ask from a relation between neighbours. -/
structure Compatible (R : vma_desc → vma_desc → Prop) : Prop where
  /-- A cut. -/
  touch : ∀ {d d' : vma_desc}, d.type ≠ d'.type → d.end_addr = d'.start_addr → R d d'
  /-- The left one changes its start. -/
  left : ∀ {d d' c : vma_desc}, R d c → d'.type = d.type → d'.end_addr = d.end_addr →
    d'.start_addr < d'.end_addr → R d' c
  /-- The right one changes its end. -/
  right : ∀ {d c c' : vma_desc}, R d c → c'.type = c.type → c'.start_addr = c.start_addr → R d c'
  /-- The left one takes the type that the right one does not have. -/
  flip_left : ∀ {d d' c : vma_desc}, R d c → d'.type ≠ c.type → d'.end_addr = d.end_addr →
    d'.start_addr < d'.end_addr → R d' c
  /-- The right one leaves the type of the left one. -/
  flip_right : ∀ {d c c' : vma_desc}, R d c → d.type = c.type → c'.type ≠ d.type →
    c'.start_addr = c.start_addr → R d c'

section chain

variable {R : vma_desc → vma_desc → Prop} {pre mid post rest : List vma_desc}
  {d f g c : vma_desc} {s e taken released : Nat} {t : vma_type} {u : area_update}

/-- The fixup at the end, where `c` is the new descriptor. -/
theorem merge_prev_chain (hR : Compatible R) (hl : Ordered (pre ++ c :: rest))
    (hpre : pre.IsChain R) (hrest : (c :: rest).IsChain R) (hc : owns s c = true)
    (hct : c.type = t) (hlink : ∀ p ∈ pre.getLast?, p.type ≠ t → R p c)
    (h : merge_prev s t ⟨pre ++ c :: rest, taken, released⟩ = some u) : u.vma_list.IsChain R := by
  rcases List.eq_nil_or_concat pre with rfl | ⟨pre, p, rfl⟩
  · rw [List.nil_append, merge_prev_nil hl hc] at h
    obtain rfl := Option.some.inj h
    exact hrest
  · simp only [List.concat_eq_append] at hl hpre hlink h
    have hl' : Ordered (pre ++ p :: c :: rest) := by simpa using hl
    rw [List.append_assoc, List.singleton_append, merge_prev_snoc hl' hc] at h
    obtain ⟨hp, hsep, -⟩ := apart_cons.mp (apart_append.mp hl').2.1
    have hpc := hsep c (by simp)
    by_cases hpt : p.type = t
    · rw [if_pos hpt] at h
      obtain rfl := Option.some.inj h
      simp only [owns, decide_eq_true_eq] at hc
      rw [List.isChain_split]
      refine ⟨?_, ?_⟩
      · obtain ⟨h1, -, h3⟩ := List.isChain_append.mp hpre
        refine List.isChain_append.mpr ⟨h1, List.isChain_singleton _, ?_⟩
        intro x hx y hy
        obtain rfl : { p with end_addr := c.end_addr } = y := by simpa using hy
        exact hR.right (h3 x hx p (by simp)) rfl rfl
      · obtain ⟨h1, h2⟩ := List.isChain_cons.mp hrest
        refine List.isChain_cons.mpr ⟨?_, h2⟩
        intro y hy
        refine hR.left (h1 y hy) (hpt.trans hct.symm) rfl ?_
        show p.start_addr < c.end_addr
        omega
    · rw [if_neg hpt] at h
      obtain rfl := Option.some.inj h
      show (pre ++ p :: c :: rest).IsChain R
      rw [List.isChain_append_cons_cons]
      exact ⟨hpre, hlink p (by simp) hpt, hrest⟩

/-- The list after the split has the new descriptor at `s`, after what is left of the
    descriptor there. -/
theorem single_chain (hR : Compatible R) (hl : Ordered (pre ++ d :: post))
    (hch : (pre ++ d :: post).IsChain R) (hs : owns s d = true) (he : owns e d = true)
    (hse : s < e) (ht : d.type ≠ t)
    (h : merge_prev s t ⟨pre ++ (split_single s e t d ++ post), taken, released⟩ = some u) :
    u.vma_list.IsChain R := by
  have hord := ordered_split_single (t := t) hl hs he (Nat.le_of_lt hse)
  obtain ⟨hpre, hpost, hlink⟩ := List.isChain_append.mp hch
  obtain ⟨hnext, hpost⟩ := List.isChain_cons.mp hpost
  have hother : d.type = t.other := (d.type.eq_other_iff t).mpr ht
  simp only [owns, decide_eq_true_eq] at hs he
  have hnew : owns s ⟨t, s, e⟩ = true := by
    simp only [owns, decide_eq_true_eq]
    omega
  unfold split_single at h hord
  by_cases hds : d.start_addr = s
  · rw [if_pos hds] at h hord
    rw [List.cons_append, List.singleton_append] at h hord
    refine merge_prev_chain hR hord hpre ?_ hnew rfl ?_ h
    · refine List.isChain_cons_cons.mpr ⟨hR.touch (Ne.symm ht) rfl, List.isChain_cons.mpr ⟨?_, hpost⟩⟩
      intro y hy
      exact hR.left (hnext y hy) rfl rfl he.2
    · intro p hp hpt
      -- the left neighbour has the type of `d`, and the new one has not
      refine hR.flip_right (hlink p hp d (by simp)) ?_ (Ne.symm hpt) hds.symm
      rw [hother]
      exact (p.type.eq_other_iff t).mpr hpt
  · rw [if_neg hds] at h hord
    have hshape : pre ++ ([{ d with end_addr := s }, ⟨t, s, e⟩, ⟨t.other, e, d.end_addr⟩] ++ post) =
        (pre ++ [{ d with end_addr := s }]) ++ ⟨t, s, e⟩ :: (⟨t.other, e, d.end_addr⟩ :: post) := by
      simp
    rw [hshape] at h hord
    refine merge_prev_chain hR hord ?_ ?_ hnew rfl ?_ h
    · refine List.isChain_append.mpr ⟨hpre, List.isChain_singleton _, ?_⟩
      intro x hx y hy
      obtain rfl : { d with end_addr := s } = y := by simpa using hy
      exact hR.right (hlink x hx d (by simp)) rfl rfl
    · refine List.isChain_cons_cons.mpr ⟨hR.touch t.ne_other rfl, List.isChain_cons.mpr ⟨?_, hpost⟩⟩
      intro y hy
      exact hR.left (hnext y hy) hother.symm rfl he.2
    · intro p hp hpt
      obtain rfl : { d with end_addr := s } = p := by simpa using hp
      exact hR.touch ht rfl

/-- The last of the descriptors that the walk absorbs. -/
theorem lastEnd_getLast (f : vma_desc) (mid : List vma_desc) :
    ∃ c ∈ (f :: mid).getLast?, lastEnd mid f.end_addr = c.end_addr := by
  induction mid generalizing f with
  | nil => exact ⟨f, by simp, rfl⟩
  | cons a mid ih =>
    obtain ⟨c, hc, hend⟩ := ih a
    exact ⟨c, by simpa using hc, hend⟩

theorem span_chain (hR : Compatible R) (hl : Ordered (pre ++ f :: (mid ++ g :: post)))
    (hch : (pre ++ f :: (mid ++ g :: post)).IsChain R) (hs : owns s f = true)
    (he : owns e g = true)
    (h : merge_prev s t ⟨pre ++ (split_span s e t f g mid ++ post), taken, released⟩ = some u) :
    u.vma_list.IsChain R := by
  have hshape : pre ++ f :: (mid ++ g :: post) = pre ++ (f :: (mid ++ [g]) ++ post) := by simp
  have hord := ordered_split_span (t := t) (hshape ▸ hl) hs he
  obtain ⟨h1, h2, -⟩ := lastEnd_bounds (apart_append.mp (apart_append.mp (hshape ▸ hl)).2.1).1
  obtain ⟨hpre, hmid, hlink⟩ := List.isChain_append.mp hch
  rw [← List.cons_append] at hmid
  obtain ⟨-, hpost, hlast⟩ := List.isChain_append.mp hmid
  obtain ⟨hnext, hpost⟩ := List.isChain_cons.mp hpost
  simp only [owns, decide_eq_true_eq] at hs he
  obtain ⟨kept, m, tail, heq, hkept, htail⟩ := split_span_cases s e t f g mid
  have hms : m ≤ s := by rcases hkept with ⟨-, -, rfl⟩ | ⟨-, -, rfl⟩ <;> omega
  -- what follows the new descriptor `c`
  obtain ⟨c, rest, rfl, hct, hcm, hce, hrest⟩ : ∃ c rest, tail = c :: rest ∧ c.type = t ∧
      c.start_addr = m ∧ s < c.end_addr ∧ (c :: (rest ++ post)).IsChain R := by
    rcases htail with ⟨hgt, rfl⟩ | ⟨hgt, hge, rfl⟩ | ⟨hgt, hge, rfl⟩
    · refine ⟨⟨t, m, g.end_addr⟩, [], rfl, rfl, rfl, ?_, List.isChain_cons.mpr ⟨?_, hpost⟩⟩
      · show s < g.end_addr
        omega
      · intro y hy
        refine hR.left (hnext y hy) hgt.symm rfl ?_
        show m < g.end_addr
        omega
    · obtain ⟨c, hc, hend⟩ := lastEnd_getLast f mid
      refine ⟨⟨t, m, lastEnd mid f.end_addr⟩, [g], rfl, rfl, rfl, ?_,
        List.isChain_cons_cons.mpr ⟨?_, List.isChain_cons.mpr ⟨hnext, hpost⟩⟩⟩
      · show s < lastEnd mid f.end_addr
        omega
      · refine hR.flip_left (hlast c hc g (by simp)) (Ne.symm hgt) hend ?_
        show m < lastEnd mid f.end_addr
        omega
    · refine ⟨⟨t, m, e⟩, [{ g with start_addr := e }], rfl, rfl, rfl, ?_,
        List.isChain_cons_cons.mpr ⟨hR.touch (Ne.symm hgt) rfl, List.isChain_cons.mpr ⟨?_, hpost⟩⟩⟩
      · show s < e
        omega
      · intro y hy
        exact hR.left (hnext y hy) rfl rfl he.2
  rw [heq] at h hord
  have hown : owns s c = true := by
    simp only [owns, decide_eq_true_eq]
    omega
  rcases hkept with ⟨hft, rfl, rfl⟩ | ⟨hft, rfl, rfl⟩
  · rw [List.nil_append, List.cons_append] at h hord
    refine merge_prev_chain hR hord hpre hrest hown hct ?_ h
    intro p hp _
    exact hR.right (hlink p hp f (by simp)) (hct.trans hft.symm) hcm
  · have hne : f.type ≠ t := (f.type.eq_other_iff t).mp hft
    have hassoc : pre ++ ([{ f with end_addr := m }] ++ c :: rest ++ post) =
        (pre ++ [{ f with end_addr := m }]) ++ c :: (rest ++ post) := by simp
    rw [hassoc] at h hord
    refine merge_prev_chain hR hord ?_ hrest hown hct ?_ h
    · refine List.isChain_append.mpr ⟨hpre, List.isChain_singleton _, ?_⟩
      intro x hx y hy
      obtain rfl : { f with end_addr := m } = y := by simpa using hy
      exact hR.right (hlink x hx f (by simp)) rfl rfl
    · intro p hp _
      obtain rfl : { f with end_addr := m } = p := by simpa using hp
      exact hR.touch (by rw [hct]; exact hne) hcm.symm

/-- A request that is not empty keeps such a relation between neighbours. -/
theorem insert_area_chain {l : List vma_desc} (hR : Compatible R) (hl : Ordered l)
    (hch : l.IsChain R) (hse : s < e) (h : insert_area l s e t = some u) : u.vma_list.IsChain R := by
  obtain ⟨hs, he⟩ := insert_area_owned h
  rcases owners_split hl (Nat.le_of_lt hse) hs he with ⟨pre, d, post, rfl, hs, he⟩ |
    ⟨pre, f, mid, g, post, rfl, hs, he⟩
  · obtain ⟨taken, heq⟩ := insert_area_single (t := t) hl hs he
    rw [heq] at h
    split_ifs at h with ht
    · obtain rfl := Option.some.inj h
      exact hch
    · exact single_chain hR hl hch hs he hse ht h
  · obtain ⟨taken, released, heq⟩ := insert_area_span (t := t) hl hs he
    rw [heq] at h
    exact span_chain hR hl hch hs he h

end chain

/-! ## Descriptors that are not empty -/

/-- The two results of the fixup. -/
theorem merge_prev_cases {v u : area_update} {s : Nat} {t : vma_type} (hl : Ordered v.vma_list)
    (h : merge_prev s t v = some u) :
    (u = v) ∨ ∃ pre p c post, v.vma_list = pre ++ p :: c :: post ∧ owns s c = true ∧ p.type = t ∧
      u = ⟨pre ++ { p with end_addr := c.end_addr } :: post, v.taken, v.released + 1⟩ := by
  obtain ⟨l, taken, released⟩ := v
  simp only at hl ⊢
  cases hf : find_address_owner l s with
  | none => simp [merge_prev, hf] at h
  | some i =>
    obtain ⟨pre, c, post, rfl, -, hc⟩ := find_address_owner_split hf
    rcases List.eq_nil_or_concat pre with rfl | ⟨pre, p, rfl⟩
    · rw [List.nil_append, merge_prev_nil hl hc] at h
      exact .inl (Option.some.inj h).symm
    · simp only [List.concat_eq_append, List.append_assoc, List.cons_append, List.nil_append] at hl h ⊢
      rw [merge_prev_snoc hl hc] at h
      split_ifs at h with hp
      · exact .inr ⟨pre, p, c, post, rfl, hc, hp, (Option.some.inj h).symm⟩
      · exact .inl (Option.some.inj h).symm

/-- No descriptor is empty. -/
def NoneEmpty (l : List vma_desc) : Prop := ∀ d ∈ l, d.start_addr < d.end_addr

theorem merge_prev_noneEmpty {v u : area_update} {s : Nat} {t : vma_type}
    (hl : Ordered v.vma_list) (hne : NoneEmpty v.vma_list) (h : merge_prev s t v = some u) :
    NoneEmpty u.vma_list := by
  rcases merge_prev_cases hl h with rfl | ⟨pre, p, c, post, heq, -, -, rfl⟩
  · exact hne
  · rw [heq] at hl hne
    have hpc := (apart_cons.mp (apart_append.mp hl).2.1).2.1 c (by simp)
    intro d hd
    simp only [List.mem_append, List.mem_cons] at hd
    rcases hd with hd | rfl | hd
    · exact hne d (by simp [hd])
    · have hp := hne p (by simp)
      have hc := hne c (by simp)
      simp only
      omega
    · exact hne d (by simp [hd])

/-- The request does not cover a whole descriptor of the other type from its start.
    `insert_area` would shrink that one to nothing and leave it in the list. -/
def SparesWhole (l : List vma_desc) (s e : Nat) (t : vma_type) : Prop :=
  ∀ d ∈ l, d.start_addr = s → d.type ≠ t → e < d.end_addr

theorem insert_area_noneEmpty {l : List vma_desc} {s e : Nat} {t : vma_type} {u : area_update}
    (hl : Ordered l) (hne : NoneEmpty l) (hse : s < e) (hspare : SparesWhole l s e t)
    (h : insert_area l s e t = some u) : NoneEmpty u.vma_list := by
  obtain ⟨hs, he⟩ := insert_area_owned h
  rcases owners_split hl (Nat.le_of_lt hse) hs he with ⟨pre, d, post, rfl, hs, he⟩ |
    ⟨pre, f, mid, g, post, rfl, hs, he⟩
  · obtain ⟨taken, heq⟩ := insert_area_single (t := t) hl hs he
    rw [heq] at h
    split_ifs at h with ht
    · obtain rfl := Option.some.inj h
      exact hne
    · refine merge_prev_noneEmpty (ordered_split_single hl hs he (Nat.le_of_lt hse)) ?_ h
      simp only [owns, decide_eq_true_eq] at hs he
      intro c hc
      simp only [List.mem_append] at hc
      rcases hc with hc | hc | hc
      · exact hne c (by simp [hc])
      · unfold split_single at hc
        split at hc <;> simp only [List.mem_cons, List.not_mem_nil, or_false] at hc
        · rcases hc with rfl | rfl <;> simp only <;> omega
        · rcases hc with rfl | rfl | rfl <;> simp only <;> omega
      · exact hne c (by simp [hc])
  · obtain ⟨taken, released, heq⟩ := insert_area_span (t := t) hl hs he
    rw [heq] at h
    have hshape : pre ++ f :: (mid ++ g :: post) = pre ++ (f :: (mid ++ [g]) ++ post) := by simp
    have hmid := (apart_append.mp (apart_append.mp (hshape ▸ hl)).2.1).1
    refine merge_prev_noneEmpty (ordered_split_span (hshape ▸ hl) hs he) ?_ h
    obtain ⟨h1, h2, -⟩ := lastEnd_bounds hmid
    simp only [owns, decide_eq_true_eq] at hs he
    intro c hc
    simp only [List.mem_append] at hc
    rcases hc with hc | hc | hc
    · exact hne c (by simp [hc])
    · have hspf := hspare f (by simp)
      have hg := hne g (by simp)
      obtain ⟨kept, m, tail, heq, hkept, htail⟩ := split_span_cases s e t f g mid
      rw [heq] at hc
      have hkm : m ≤ s ∧ ∀ k ∈ kept, k.start_addr < k.end_addr := by
        rcases hkept with ⟨-, rfl, rfl⟩ | ⟨hft, rfl, rfl⟩
        · exact ⟨hs.1, by simp⟩
        · refine ⟨Nat.le_refl _, ?_⟩
          have hft := (f.type.eq_other_iff t).mp hft
          simp only [List.mem_singleton, forall_eq]
          -- a start at `s` would be that of a whole descriptor
          by_contra hge
          have := hspf (by omega) hft
          omega
      rcases List.mem_append.mp hc with hc | hc
      · exact hkm.2 c hc
      · rcases htail with ⟨-, rfl⟩ | ⟨-, hge, rfl⟩ | ⟨-, hge, rfl⟩ <;>
          simp only [List.mem_cons, List.not_mem_nil, or_false] at hc
        · subst hc
          simp only
          omega
        · rcases hc with rfl | rfl
          · simp only
            omega
          · exact hg
        · rcases hc with rfl | rfl <;> simp only <;> omega
    · exact hne c (by simp [hc])

end Umeq.Memory
