import Umeq.Memory.Vma
import Mathlib.Tactic.Linarith

/-! # `insert_area` is a pointwise update of the address map

    `typeAt` reads the descriptor list as a map from addresses to types.
    `Retypes` says what an update of the list may do to that map: the addresses
    of `[s, e[` take the requested type and the others keep theirs. The proofs
    follow the code: `split_area` rewrites the middle of the list, and
    `merge_prev` only joins two neighbours.
-/

namespace Umeq.Memory

open Intervals

/-! ## The map a list stands for -/

/-- The type of an address, `none` where no descriptor owns it. -/
def typeAt (l : List vma_desc) (x : Nat) : Option vma_type :=
  lookup vma_desc.start_addr vma_desc.end_addr vma_desc.type l x

/-- The descriptors are in address order and do not overlap. -/
def Ordered (l : List vma_desc) : Prop :=
  Apart vma_desc.start_addr vma_desc.end_addr l

/-- The descriptors fill `[a, b[`. -/
def TilesRange (a b : Nat) (l : List vma_desc) : Prop :=
  Tiles vma_desc.start_addr vma_desc.end_addr a b l

instance (a b : Nat) (l : List vma_desc) : Decidable (TilesRange a b l) :=
  inferInstanceAs (Decidable (Tiles _ _ a b l))

/-- The starts of the descriptors satisfy `P` and their ends satisfy `Q`. -/
def BoundsIn (P Q : Nat → Prop) (l : List vma_desc) : Prop :=
  ∀ d ∈ l, P d.start_addr ∧ Q d.end_addr

/-- `l'` is `l` with the type of `[s, e[` set to `t`. -/
structure Retypes (l l' : List vma_desc) (s e : Nat) (t : vma_type) : Prop where
  ordered : Ordered l'
  agree : ∀ x v, typeAt l x = some v →
    typeAt l' x = some (if s ≤ x ∧ x < e then t else v)
  tiles : ∀ a b, TilesRange a b l → TilesRange a b l'
  bounds : ∀ P Q : Nat → Prop, P s → P e → Q s → Q e → BoundsIn P Q l → BoundsIn P Q l'

/-! ## Owners by position -/

theorem owns_iff (x : Nat) (d : vma_desc) :
    owns x d = true ↔ Covers vma_desc.start_addr vma_desc.end_addr d x := by
  simp [owns, Covers]

/-- The descriptor a lookup finds, with the list around it. -/
theorem find_address_owner_split {l : List vma_desc} {x i : Nat}
    (h : find_address_owner l x = some i) :
    ∃ pre d post, l = pre ++ d :: post ∧ pre.length = i ∧ owns x d = true := by
  unfold find_address_owner find_address_owner_without_assert at h
  obtain ⟨hi, hown, _⟩ := List.findIdx?_eq_some_iff_getElem.mp h
  refine ⟨l.take i, l[i], l.drop (i + 1), ?_, ?_, hown⟩
  · rw [List.getElem_cons_drop, List.take_append_drop]
  · simp [Nat.le_of_lt hi]

theorem find_address_owner_first (pre post : List vma_desc) {d : vma_desc} {x : Nat}
    (hpre : ∀ c ∈ pre, owns x c = false) (hd : owns x d = true) :
    find_address_owner (pre ++ d :: post) x = some pre.length := by
  have hpre : pre.findIdx? (owns x) = none := by
    simpa [List.findIdx?_eq_none_iff] using hpre
  simp [find_address_owner, find_address_owner_without_assert, List.findIdx?_append, hpre,
    List.findIdx?_cons, hd]

theorem owns_before {pre post : List vma_desc} {d : vma_desc} {x : Nat}
    (hl : Ordered (pre ++ d :: post)) (hd : owns x d = true) : ∀ c ∈ pre, owns x c = false := by
  intro c hc
  have hsep := (apart_append.mp hl).2.2 c hc d (by simp)
  simp only [owns, decide_eq_true_eq, decide_eq_false_iff_not] at hd ⊢
  omega

/-- In an ordered list the lookup finds the one descriptor that owns the address. -/
theorem find_address_owner_eq {pre post : List vma_desc} {d : vma_desc} {x : Nat}
    (hl : Ordered (pre ++ d :: post)) (hd : owns x d = true) :
    find_address_owner (pre ++ d :: post) x = some pre.length :=
  find_address_owner_first pre post (owns_before hl hd) hd

theorem typeAt_owner {pre post : List vma_desc} {d : vma_desc} {x : Nat}
    (hl : Ordered (pre ++ d :: post)) (hd : owns x d = true) :
    typeAt (pre ++ d :: post) x = some d.type :=
  Apart.lookup_eq hl vma_desc.type (by simp) ((owns_iff x d).mp hd)

/-! ## `merge_prev` -/

theorem merge_prev_nil {post : List vma_desc} {c : vma_desc} {s taken released : Nat}
    {t : vma_type} (hl : Ordered (c :: post)) (hc : owns s c = true) :
    merge_prev s t ⟨c :: post, taken, released⟩ = some ⟨c :: post, taken, released⟩ := by
  have := find_address_owner_eq (show Ordered ([] ++ c :: post) from hl) hc
  simp only [List.nil_append, List.length_nil] at this
  simp [merge_prev, this]

/-- The fixup looks for the first owner of `s`, in a list that need not be in order. -/
theorem merge_prev_first (pre post : List vma_desc) (p c : vma_desc) {s : Nat}
    (taken released : Nat) {t : vma_type} (hpre : ∀ b ∈ pre ++ [p], owns s b = false) (hc : owns s c = true) :
    merge_prev s t ⟨pre ++ p :: c :: post, taken, released⟩ =
      some (if p.type = t then
        ⟨pre ++ { p with end_addr := c.end_addr } :: post, taken, released + 1⟩
      else ⟨pre ++ p :: c :: post, taken, released⟩) := by
  have hfind : find_address_owner (pre ++ p :: c :: post) s = some (pre.length + 1) := by
    have := find_address_owner_first (pre ++ [p]) post hpre hc
    simpa using this
  have htake : (pre ++ p :: c :: post).take pre.length = pre := by simp
  have hdrop : (pre ++ p :: c :: post).drop (pre.length + 2) = post := by
    rw [List.drop_append]
    simp
  by_cases hp : p.type = t <;> simp [merge_prev, hfind, hp, hdrop]

theorem merge_prev_snoc {pre post : List vma_desc} {p c : vma_desc} {s taken released : Nat}
    {t : vma_type} (hl : Ordered (pre ++ p :: c :: post)) (hc : owns s c = true) :
    merge_prev s t ⟨pre ++ p :: c :: post, taken, released⟩ =
      some (if p.type = t then
        ⟨pre ++ { p with end_addr := c.end_addr } :: post, taken, released + 1⟩
      else ⟨pre ++ p :: c :: post, taken, released⟩) :=
  merge_prev_first _ _ _ _ _ _
    (owns_before (show Ordered ((pre ++ [p]) ++ c :: post) by simpa using hl) hc) hc

/-- A part of the list is replaced by one in which each of its addresses is found again. -/
theorem retypes_replace {pre mid' post : List vma_desc} {s e : Nat} {t : vma_type}
    (mid : List vma_desc)
    (hord : Ordered (pre ++ (mid' ++ post)))
    (hout : ∀ c ∈ pre ++ post, ∀ x, Covers vma_desc.start_addr vma_desc.end_addr c x →
      ¬ (s ≤ x ∧ x < e))
    (hcov : ∀ c ∈ mid, ∀ x, Covers vma_desc.start_addr vma_desc.end_addr c x →
      ∃ c' ∈ mid', Covers vma_desc.start_addr vma_desc.end_addr c' x ∧
        c'.type = if s ≤ x ∧ x < e then t else c.type)
    (htiles : ∀ a b, TilesRange a b mid → TilesRange a b mid')
    (hbounds : ∀ P Q : Nat → Prop, P s → P e → Q s → Q e → BoundsIn P Q mid → BoundsIn P Q mid') :
    Retypes (pre ++ (mid ++ post)) (pre ++ (mid' ++ post)) s e t where
  ordered := hord
  agree := by
    intro x v hv
    obtain ⟨c, hc, hx, rfl⟩ := lookup_some hv
    simp only [List.mem_append] at hc
    rcases hc with hc | hc | hc
    · rw [if_neg (hout c (by simp [hc]) x hx)]
      exact hord.lookup_eq _ (by simp [hc]) hx
    · obtain ⟨c', hmem, hx', htype⟩ := hcov c hc x hx
      rw [← htype]
      exact hord.lookup_eq vma_desc.type (by simp [hmem]) hx'
    · rw [if_neg (hout c (by simp [hc]) x hx)]
      exact hord.lookup_eq _ (by simp [hc]) hx
  tiles := by
    intro a b h
    obtain ⟨m, hpre, hrest⟩ := tiles_append.mp h
    obtain ⟨n, hmid, hpost⟩ := tiles_append.mp hrest
    exact tiles_append.mpr ⟨m, hpre, tiles_append.mpr ⟨n, htiles m n hmid, hpost⟩⟩
  bounds := by
    intro P Q hPs hPe hQs hQe hb c hc
    simp only [List.mem_append] at hc
    rcases hc with hc | hc | hc
    · exact hb c (by simp [hc])
    · exact hbounds P Q hPs hPe hQs hQe (fun d hd => hb d (by simp [hd])) c hc
    · exact hb c (by simp [hc])

/-- Joining the owner of `s` with its left neighbour moves no address. -/
theorem retypes_merge {pre post : List vma_desc} {p c : vma_desc} {s : Nat} {t : vma_type}
    (hl : Ordered (pre ++ p :: c :: post)) (hp : p.type = t) (hc : c.type = t) :
    Retypes (pre ++ p :: c :: post) (pre ++ { p with end_addr := c.end_addr } :: post)
      s s t := by
  have hl' : Ordered (pre ++ ([p, c] ++ post)) := by simpa using hl
  obtain ⟨hple, hpc, hcpost⟩ := apart_cons.mp (apart_append.mp hl).2.1
  have hcle := (apart_cons.mp hcpost).1
  have hpc := hpc c (by simp)
  have hord : Ordered (pre ++ ([{ p with end_addr := c.end_addr }] ++ post)) := by
    have hp : Ordered [{ p with end_addr := c.end_addr }] :=
      apart_cons.mpr ⟨by simp only; omega, by simp, Apart.nil⟩
    exact hl'.replace hp (by simp) (by simp)
  have h := retypes_replace [p, c] (s := s) (e := s) (t := t) hord
    (fun _ _ x _ => by omega) ?_ ?_ ?_
  · simpa using h
  · intro d hd x hx
    refine ⟨{ p with end_addr := c.end_addr }, by simp, ?_, ?_⟩
    · unfold Covers at hx ⊢
      simp only [List.mem_cons, List.not_mem_nil, or_false] at hd
      rcases hd with rfl | rfl <;> simp only <;> omega
    · rw [if_neg (by omega)]
      simp only [List.mem_cons, List.not_mem_nil, or_false] at hd
      rcases hd with rfl | rfl
      · rfl
      · exact hp.trans hc.symm
  · intro a b ht
    obtain ⟨h1, h2, h3, h4, h5⟩ := ht
    exact ⟨h1, by simp only; omega, h5⟩
  · intro P Q _ _ _ _ hb d hd
    obtain rfl := List.mem_singleton.mp hd
    exact ⟨(hb p (by simp)).1, (hb c (by simp)).2⟩

theorem Retypes.refl {l : List vma_desc} {s : Nat} {t : vma_type} (hl : Ordered l) :
    Retypes l l s s t where
  ordered := hl
  agree := fun x v hv => by rw [if_neg (by omega)]; exact hv
  tiles := fun _ _ h => h
  bounds := fun _ _ _ _ _ _ h => h

theorem Retypes.trans {l l' l'' : List vma_desc} {s e s' : Nat} {t t' : vma_type}
    (h : Retypes l l' s e t) (h' : Retypes l' l'' s' s' t') (hs : s' = s) :
    Retypes l l'' s e t where
  ordered := h'.ordered
  agree := fun x v hv => by
    have := h'.agree x _ (h.agree x v hv)
    rwa [if_neg (c := s' ≤ x ∧ x < s') (by omega)] at this
  tiles := fun a b ht => h'.tiles a b (h.tiles a b ht)
  bounds := fun P Q hPs hPe hQs hQe hb => by
    subst hs
    exact h'.bounds P Q hPs hPs hQs hQs (h.bounds P Q hPs hPe hQs hQe hb)

/-- `merge_prev` keeps the map of a list whose owner of `s` has the type looked for. -/
theorem merge_prev_spec {u : area_update} {s : Nat} {t : vma_type}
    (hl : Ordered u.vma_list) (hs : typeAt u.vma_list s = some t) :
    ∃ r, merge_prev s t u = some r ∧ Retypes u.vma_list r.vma_list s s t := by
  obtain ⟨l, taken, released⟩ := u
  obtain ⟨c, hc, hcov, hct⟩ := lookup_some hs
  have hown := (owns_iff s c).mpr hcov
  obtain ⟨pre, post, rfl⟩ := List.append_of_mem hc
  simp only at hl hs ⊢
  rcases List.eq_nil_or_concat pre with rfl | ⟨pre, p, rfl⟩
  · exact ⟨_, merge_prev_nil hl hown, Retypes.refl hl⟩
  · simp only [List.concat_eq_append, List.append_assoc, List.cons_append, List.nil_append] at hl ⊢
    rw [merge_prev_snoc hl hown]
    by_cases hp : p.type = t
    · exact ⟨_, rfl, by simpa [hp] using retypes_merge hl hp hct⟩
    · exact ⟨_, rfl, by simpa [hp] using Retypes.refl hl⟩

/-! ## A request inside one descriptor -/

section single

variable {pre post : List vma_desc} {d : vma_desc} {s e : Nat} {t : vma_type}

/-- The rewriting of `split_area` when one descriptor owns both addresses. -/
def split_single (s e : Nat) (t : vma_type) (d : vma_desc) : List vma_desc :=
  if d.start_addr = s then [⟨t, s, e⟩, { d with start_addr := e }]
  else [{ d with end_addr := s }, ⟨t, s, e⟩, ⟨t.other, e, d.end_addr⟩]

theorem insert_area_single (hl : Ordered (pre ++ d :: post)) (hs : owns s d = true)
    (he : owns e d = true) : ∃ taken, insert_area (pre ++ d :: post) s e t =
      if d.type = t then some ⟨pre ++ d :: post, 0, 0⟩
      else merge_prev s t ⟨pre ++ (split_single s e t d ++ post), taken, 0⟩ := by
  have hfs := find_address_owner_eq hl hs
  have hfe := find_address_owner_eq hl he
  have htake : (pre ++ d :: post).take pre.length = pre := by simp
  have hdrop : (pre ++ d :: post).drop (pre.length + 1) = post := by
    rw [List.drop_append]; simp
  by_cases ht : d.type = t
  · exact ⟨0, by simp [insert_area, split_area, hfs, hfe, ht]⟩
  · by_cases hst : d.start_addr = s
    · exact ⟨1, by simp [insert_area, split_area, split_single, hfs, hfe, ht, hst, hdrop]⟩
    · exact ⟨2, by simp [insert_area, split_area, split_single, hfs, hfe, ht, hst, hdrop]⟩

theorem mem_split_single {c : vma_desc} (hc : c ∈ split_single s e t d)
    (hs : owns s d = true) (he : owns e d = true) (hse : s ≤ e) :
    d.start_addr ≤ c.start_addr ∧ c.start_addr ≤ c.end_addr ∧ c.end_addr ≤ d.end_addr := by
  simp only [owns, decide_eq_true_eq] at hs he
  unfold split_single at hc
  split at hc <;> simp only [List.mem_cons, List.not_mem_nil, or_false] at hc
  · rcases hc with rfl | rfl <;> simp only <;> omega
  · rcases hc with rfl | rfl | rfl <;> simp only <;> omega

theorem ordered_split_single (hl : Ordered (pre ++ d :: post)) (hs : owns s d = true)
    (he : owns e d = true) (hse : s ≤ e) :
    Ordered (pre ++ (split_single s e t d ++ post)) := by
  refine Apart.replace (show Ordered (pre ++ ([d] ++ post)) by simpa using hl) ?_ ?_ ?_
  · have hs' := hs
    have he' := he
    simp only [owns, decide_eq_true_eq] at hs' he'
    unfold split_single
    split <;> simp [apart_cons, Apart.nil] <;> omega
  · exact fun c hc => ⟨d, by simp, (mem_split_single hc hs he hse).1⟩
  · exact fun c hc => ⟨d, by simp, (mem_split_single hc hs he hse).2.2⟩

/-- Splitting the one descriptor concerned retypes exactly the request. -/
theorem retypes_split_single (hl : Ordered (pre ++ d :: post)) (hs : owns s d = true)
    (he : owns e d = true) (hse : s ≤ e) (ht : d.type = t.other) :
    Retypes (pre ++ d :: post) (pre ++ (split_single s e t d ++ post)) s e t := by
  have hord := ordered_split_single (t := t) hl hs he hse
  simp only [owns, decide_eq_true_eq] at hs he
  obtain ⟨_, hdpost, hsep⟩ := apart_append.mp hl
  obtain ⟨_, hsep', _⟩ := apart_cons.mp hdpost
  have h := retypes_replace [d] (s := s) (e := e) (t := t) hord ?_ ?_ ?_ ?_
  · simpa using h
  · intro c hc x hx
    unfold Covers at hx
    rcases List.mem_append.mp hc with hc | hc
    · have := hsep c hc d (by simp)
      omega
    · have := hsep' c hc
      omega
  · intro c hc x hx
    obtain rfl := List.mem_singleton.mp hc
    unfold split_single
    unfold Covers at hx ⊢
    -- the pieces of `d`: before the request, the request, after it
    split
    · by_cases hxe : x < e
      · exact ⟨⟨t, s, e⟩, by simp, by simp only; omega, by simp only; rw [if_pos (by omega)]⟩
      · exact ⟨{ c with start_addr := e }, by simp, by simp only; omega,
          by simp only; rw [if_neg (by omega)]⟩
    · by_cases hxs : x < s
      · exact ⟨{ c with end_addr := s }, by simp, by simp only; omega,
          by simp only; rw [if_neg (by omega)]⟩
      · by_cases hxe : x < e
        · exact ⟨⟨t, s, e⟩, by simp, by simp only; omega,
            by simp only; rw [if_pos (by omega)]⟩
        · exact ⟨⟨t.other, e, c.end_addr⟩, by simp, by simp only; omega,
            by simp only; rw [if_neg (by omega), ht]⟩
  · intro a b htiles
    obtain ⟨h1, h2, h3⟩ := htiles
    obtain rfl : d.end_addr = b := h3
    unfold split_single
    split <;> simp only [TilesRange, Tiles, true_and, and_true] <;> omega
  · intro P Q hPs hPe hQs hQe hb c hc
    have hbd := hb d (by simp)
    unfold split_single at hc
    split at hc <;> simp only [List.mem_cons, List.not_mem_nil, or_false] at hc
    · rcases hc with rfl | rfl
      · exact ⟨hPs, hQe⟩
      · exact ⟨hPe, hbd.2⟩
    · rcases hc with rfl | rfl | rfl
      · exact ⟨hbd.1, hQs⟩
      · exact ⟨hPs, hQe⟩
      · exact ⟨hPe, hbd.2⟩

/-- The descriptor from `s` on. -/
def cut_at (s : Nat) (t : vma_type) (d : vma_desc) : List vma_desc :=
  if d.start_addr = s then [⟨t, s, d.end_addr⟩]
  else [{ d with end_addr := s }, ⟨t, s, d.end_addr⟩]

/-- A request in a descriptor of the other type that is empty, or ends before its start, is not
    empty for the code: `merge_prev` takes the new descriptor for the left neighbour of the owner
    of `s` and gives it the whole rest of the descriptor. -/
theorem insert_area_cut (hl : Ordered (pre ++ d :: post)) (hs : owns s d = true)
    (he : owns e d = true) (hes : e ≤ s) (ht : d.type ≠ t) :
    ∃ taken released, insert_area (pre ++ d :: post) s e t =
      some ⟨pre ++ (cut_at s t d ++ post), taken, released⟩ := by
  obtain ⟨taken, heq⟩ := insert_area_single (t := t) hl hs he
  rw [if_neg ht] at heq
  have hpre := owns_before hl hs
  simp only [owns, decide_eq_true_eq] at hs he
  unfold split_single at heq
  unfold cut_at
  by_cases hds : d.start_addr = s
  · rw [if_pos hds] at heq ⊢
    have hmerge := merge_prev_first pre post ⟨t, s, e⟩ { d with start_addr := e } taken 0
      (s := s) (t := t) ?_ ?_
    · refine ⟨taken, 1, heq.trans ?_⟩
      simpa using hmerge
    · intro b hb
      rcases List.mem_append.mp hb with hb | hb
      · exact hpre b hb
      · obtain rfl := List.mem_singleton.mp hb
        simp only [owns, decide_eq_false_iff_not]
        omega
    · simp only [owns, decide_eq_true_eq]
      omega
  · rw [if_neg hds] at heq ⊢
    have hmerge := merge_prev_first (pre ++ [{ d with end_addr := s }]) post ⟨t, s, e⟩
      ⟨t.other, e, d.end_addr⟩ taken 0 (s := s) (t := t) ?_ ?_
    · refine ⟨taken, 1, heq.trans ?_⟩
      simpa using hmerge
    · intro b hb
      simp only [List.append_assoc, List.mem_append, List.singleton_append, List.mem_cons,
        List.not_mem_nil, or_false] at hb
      rcases hb with hb | rfl | rfl
      · exact hpre b hb
      · simp [owns]
      · simp only [owns, decide_eq_false_iff_not]
        omega
    · simp only [owns, decide_eq_true_eq]
      omega

theorem retypes_cut (hl : Ordered (pre ++ d :: post)) (hs : owns s d = true) :
    Retypes (pre ++ d :: post) (pre ++ (cut_at s t d ++ post)) s d.end_addr t := by
  simp only [owns, decide_eq_true_eq] at hs
  obtain ⟨_, hdpost, hsep⟩ := apart_append.mp hl
  obtain ⟨_, hsep', _⟩ := apart_cons.mp hdpost
  have hl' : Ordered (pre ++ ([d] ++ post)) := by simpa using hl
  have hord : Ordered (pre ++ (cut_at s t d ++ post)) := by
    refine hl'.replace ?_ ?_ ?_ <;> unfold cut_at <;> split <;>
      simp [apart_cons, Apart.nil] <;> omega
  have h := retypes_replace [d] (s := s) (e := d.end_addr) (t := t) hord ?_ ?_ ?_ ?_
  · simpa using h
  · intro c hc x hx
    unfold Covers at hx
    rcases List.mem_append.mp hc with hc | hc
    · have := hsep c hc d (by simp)
      omega
    · have := hsep' c hc
      omega
  · intro c hc x hx
    obtain rfl := List.mem_singleton.mp hc
    unfold Covers at hx ⊢
    unfold cut_at
    by_cases hxs : x < s
    · rw [if_neg (show c.start_addr ≠ s by omega), if_neg (by omega)]
      exact ⟨{ c with end_addr := s }, by simp, by simp only; omega, rfl⟩
    · rw [if_pos (show s ≤ x ∧ x < c.end_addr by omega)]
      refine ⟨⟨t, s, c.end_addr⟩, ?_, by simp only; omega, rfl⟩
      split <;> simp
  · intro a b htiles
    obtain ⟨h1, h2, h3⟩ := htiles
    obtain rfl : d.end_addr = b := h3
    unfold cut_at
    split <;> simp only [TilesRange, Tiles, true_and, and_true] <;> omega
  · intro P Q hPs _ hQs _ hb c hc
    have hbd := hb d (by simp)
    unfold cut_at at hc
    split at hc <;> simp only [List.mem_cons, List.not_mem_nil, or_false] at hc
    · obtain rfl := hc
      exact ⟨hPs, hbd.2⟩
    · rcases hc with rfl | rfl
      · exact ⟨hbd.1, hQs⟩
      · exact ⟨hPs, hbd.2⟩

end single

/-! ## A request over several descriptors -/

section spans

variable {pre mid post : List vma_desc} {f g : vma_desc} {s e : Nat} {t : vma_type}

/-- The end of the last descriptor of `mid`, or `e₀` when there is none. -/
def lastEnd (mid : List vma_desc) (e₀ : Nat) : Nat :=
  mid.foldl (fun _ c => c.end_addr) e₀

/-- `absorb` runs to `last` and extends `current_mapped` up to it. -/
theorem absorb_eq (m : vma_desc) (pos : Nat) :
    absorb (pos + mid.length) pos m (mid ++ g :: post) =
      some ({ m with end_addr := lastEnd mid m.end_addr }, mid.length) := by
  induction mid generalizing m pos with
  | nil => simp [absorb, lastEnd]
  | cons c mid ih =>
    have hne : pos ≠ pos + (c :: mid).length := by simp
    have hpos : pos + (c :: mid).length = pos + 1 + mid.length := by simp; omega
    rw [List.cons_append, absorb, if_neg hne, hpos, ih]
    simp [lastEnd]

/-- The result of the walk over `f` and `mid`. -/
def walk_span (s : Nat) (t : vma_type) (f : vma_desc) (mid : List vma_desc) : span :=
  if f.type = t.other then
    ⟨[{ f with end_addr := s }], ⟨t, s, lastEnd mid f.end_addr⟩, 1, mid.length⟩
  else
    ⟨[], { f with end_addr := lastEnd mid f.end_addr }, 0, mid.length⟩

/-- The list that replaces the descriptors from `f` to `g`. -/
def split_span (s e : Nat) (t : vma_type) (f g : vma_desc) (mid : List vma_desc) :
    List vma_desc :=
  (close_span e t g (walk_span s t f mid)).vma_list

theorem find_address_owner_span (hl : Ordered (pre ++ f :: (mid ++ g :: post)))
    (he : owns e g = true) : find_address_owner (pre ++ f :: (mid ++ g :: post)) e =
      some (pre.length + 1 + mid.length) := by
  have := find_address_owner_eq
    (show Ordered ((pre ++ f :: mid) ++ g :: post) by simpa using hl) he
  rw [List.append_assoc, List.cons_append] at this
  rw [this, List.length_append, List.length_cons]
  congr 1
  omega

theorem insert_area_span (hl : Ordered (pre ++ f :: (mid ++ g :: post))) (hs : owns s f = true)
    (he : owns e g = true) : ∃ taken released,
      insert_area (pre ++ f :: (mid ++ g :: post)) s e t =
        merge_prev s t ⟨pre ++ (split_span s e t f g mid ++ post), taken, released⟩ := by
  have hfs := find_address_owner_eq hl hs
  have hfe := find_address_owner_span hl he
  have hne : pre.length ≠ pre.length + 1 + mid.length := by omega
  have hgetf : (pre ++ f :: (mid ++ g :: post))[pre.length]? = some f := by simp
  have hgetg : (pre ++ f :: (mid ++ g :: post))[pre.length + 1 + mid.length]? = some g := by
    rw [List.getElem?_append_right (by omega), show pre.length + 1 + mid.length - pre.length =
      mid.length + 1 by omega, List.getElem?_cons_succ, List.getElem?_append_right (by omega)]
    simp
  have hdrop : (pre ++ f :: (mid ++ g :: post)).drop pre.length = f :: (mid ++ g :: post) := by
    simp
  have hdrop' : (pre ++ f :: (mid ++ g :: post)).drop (pre.length + 1 + mid.length + 1) = post := by
    rw [show pre ++ f :: (mid ++ g :: post) = (pre ++ f :: mid ++ [g]) ++ post by simp,
      List.drop_append_of_le_length (by simp; omega)]
    rw [List.drop_eq_nil_of_le (by simp; omega)]
    simp
  have htake : (pre ++ f :: (mid ++ g :: post)).take pre.length = pre := by simp
  have hwalk : walk s t (pre.length + 1 + mid.length) pre.length (f :: (mid ++ g :: post)) =
      some (walk_span s t f mid) := by
    unfold walk walk_span
    by_cases hf : f.type = t.other <;> simp [hf, absorb_eq]
  refine ⟨(close_span e t g (walk_span s t f mid)).taken,
    (close_span e t g (walk_span s t f mid)).released, ?_⟩
  simp only [insert_area, hfs, hfe, Option.bind_eq_bind, Option.bind_some, hgetf, hgetg, split_area,
    if_neg hne, hdrop, hwalk, hdrop', htake, split_span, List.append_assoc]

/-- Where the walk stops: after `f`, before `g`, past every descriptor of `mid`. -/
theorem lastEnd_bounds (hl : Ordered (f :: (mid ++ [g]))) :
    f.end_addr ≤ lastEnd mid f.end_addr ∧ lastEnd mid f.end_addr ≤ g.start_addr ∧
      ∀ c ∈ mid, f.end_addr ≤ c.start_addr ∧ c.end_addr ≤ lastEnd mid f.end_addr := by
  induction mid generalizing f with
  | nil =>
    obtain ⟨_, hsep, _⟩ := apart_cons.mp hl
    simpa [lastEnd] using hsep
  | cons c mid ih =>
    obtain ⟨_, hsep, hrest⟩ := apart_cons.mp hl
    obtain ⟨h1, h2, h3⟩ := ih hrest
    have hfc := hsep c (by simp)
    have hc := (apart_cons.mp hrest).1
    simp only [lastEnd, List.foldl_cons] at h1 h2 h3 ⊢
    refine ⟨by omega, h2, ?_⟩
    intro c' hc'
    rcases List.mem_cons.mp hc' with rfl | hmem
    · exact ⟨hfc, h1⟩
    · have := h3 c' hmem
      omega

theorem lastEnd_tiles {a b : Nat} (h : TilesRange a b mid) : lastEnd mid a = b := by
  induction mid generalizing a with
  | nil => exact h
  | cons c mid ih =>
    obtain ⟨_, _, hrest⟩ := h
    exact ih hrest

theorem lastEnd_mem (mid : List vma_desc) (e₀ : Nat) :
    lastEnd mid e₀ = e₀ ∨ ∃ c ∈ mid, lastEnd mid e₀ = c.end_addr := by
  induction mid generalizing e₀ with
  | nil => exact .inl rfl
  | cons c mid ih =>
    rcases ih c.end_addr with h | ⟨c', hc', h⟩
    · exact .inr ⟨c, by simp, h⟩
    · exact .inr ⟨c', by simp [hc'], h⟩

/-- The shapes `split_span` can take: what is left of `f` before the new
    descriptor, whose start is `m`, then what becomes of `g`. -/
theorem split_span_cases (s e : Nat) (t : vma_type) (f g : vma_desc) (mid : List vma_desc) :
    ∃ kept m tail, split_span s e t f g mid = kept ++ tail ∧
      ((f.type = t ∧ kept = [] ∧ m = f.start_addr) ∨
       (f.type = t.other ∧ kept = [{ f with end_addr := s }] ∧ m = s)) ∧
      ((g.type = t ∧ tail = [⟨t, m, g.end_addr⟩]) ∨
       (g.type ≠ t ∧ g.start_addr = e ∧ tail = [⟨t, m, lastEnd mid f.end_addr⟩, g]) ∨
       (g.type ≠ t ∧ g.start_addr ≠ e ∧ tail = [⟨t, m, e⟩, { g with start_addr := e }])) := by
  unfold split_span walk_span close_span
  have hg := (g.type.eq_other_iff t).mpr
  have hf := (f.type.eq_other_iff t).mpr
  by_cases hft : f.type = t <;> by_cases hgt : g.type = t
  · exact ⟨[], f.start_addr, _, by simp [hft, hgt], .inl ⟨hft, rfl, rfl⟩, .inl ⟨hgt, rfl⟩⟩
  · by_cases hge : g.start_addr = e
    · exact ⟨[], f.start_addr, _, by simp [hft, hg hgt, hge], .inl ⟨hft, rfl, rfl⟩,
        .inr (.inl ⟨hgt, hge, rfl⟩)⟩
    · exact ⟨[], f.start_addr, _, by simp [hft, hg hgt, hge], .inl ⟨hft, rfl, rfl⟩,
        .inr (.inr ⟨hgt, hge, rfl⟩)⟩
  · exact ⟨[{ f with end_addr := s }], s, _, by simp [hf hft, hgt],
      .inr ⟨hf hft, rfl, rfl⟩, .inl ⟨hgt, rfl⟩⟩
  · by_cases hge : g.start_addr = e
    · exact ⟨[{ f with end_addr := s }], s, _, by simp [hf hft, hg hgt, hge],
        .inr ⟨hf hft, rfl, rfl⟩, .inr (.inl ⟨hgt, hge, rfl⟩)⟩
    · exact ⟨[{ f with end_addr := s }], s, _, by simp [hf hft, hg hgt, hge],
        .inr ⟨hf hft, rfl, rfl⟩, .inr (.inr ⟨hgt, hge, rfl⟩)⟩

/-- The new descriptors are in order and stay between `f` and `g`. -/
theorem split_span_inside (hl : Ordered (f :: (mid ++ [g]))) (hs : owns s f = true)
    (he : owns e g = true) : Ordered (split_span s e t f g mid) ∧
      ∀ c ∈ split_span s e t f g mid,
        f.start_addr ≤ c.start_addr ∧ c.end_addr ≤ g.end_addr := by
  obtain ⟨h1, h2, _⟩ := lastEnd_bounds hl
  simp only [owns, decide_eq_true_eq] at hs he
  obtain ⟨kept, m, tail, heq, hkept, htail⟩ := split_span_cases s e t f g mid
  rw [heq]
  rcases hkept with ⟨-, rfl, rfl⟩ | ⟨-, rfl, rfl⟩ <;>
    rcases htail with ⟨-, rfl⟩ | ⟨-, hge, rfl⟩ | ⟨-, hge, rfl⟩ <;>
    simp [Ordered, apart_cons, Apart.nil] <;> omega

theorem ordered_split_span (hl : Ordered (pre ++ (f :: (mid ++ [g]) ++ post)))
    (hs : owns s f = true) (he : owns e g = true) :
    Ordered (pre ++ (split_span s e t f g mid ++ post)) := by
  have hmid := (apart_append.mp (apart_append.mp hl).2.1).1
  obtain ⟨hord, hin⟩ := split_span_inside (t := t) hmid hs he
  exact hl.replace hord (fun c hc => ⟨f, by simp, (hin c hc).1⟩)
    (fun c hc => ⟨g, by simp, (hin c hc).2⟩)

/-- Every address of the replaced descriptors is found again in the new ones,
    with the type the request asks for. -/
theorem split_span_covers (hl : Ordered (f :: (mid ++ [g]))) (hs : owns s f = true)
    (he : owns e g = true) {c : vma_desc} (hc : c = f ∨ c ∈ mid ∨ c = g) {x : Nat}
    (hx : Covers vma_desc.start_addr vma_desc.end_addr c x) :
    ∃ c' ∈ split_span s e t f g mid,
      Covers vma_desc.start_addr vma_desc.end_addr c' x ∧
      c'.type = if s ≤ x ∧ x < e then t else c.type := by
  obtain ⟨h1, h2, h3⟩ := lastEnd_bounds hl
  simp only [owns, decide_eq_true_eq] at hs he
  obtain ⟨kept, m, tail, heq, hkept, htail⟩ := split_span_cases s e t f g mid
  rw [heq]
  unfold Covers at hx ⊢
  have hms : m ≤ s := by rcases hkept with ⟨-, -, rfl⟩ | ⟨-, -, rfl⟩ <;> omega
  have hmid : c ∈ mid → s ≤ x ∧ x < e ∧ x < lastEnd mid f.end_addr := by
    intro hc
    have := h3 c hc
    omega
  by_cases hxs : x < s
  · -- before the request: only `f` reaches there
    rw [if_neg (by omega)]
    have hcf : c = f := by
      rcases hc with rfl | hc | rfl
      · rfl
      · have := hmid hc; omega
      · omega
    subst hcf
    rcases hkept with ⟨hft, rfl, rfl⟩ | ⟨-, rfl, rfl⟩
    · rcases htail with ⟨-, rfl⟩ | ⟨-, -, rfl⟩ | ⟨-, -, rfl⟩
      · exact ⟨⟨t, c.start_addr, g.end_addr⟩, by simp, by simp only; omega, hft.symm⟩
      · exact ⟨⟨t, c.start_addr, lastEnd mid c.end_addr⟩, by simp, by simp only; omega, hft.symm⟩
      · exact ⟨⟨t, c.start_addr, e⟩, by simp, by simp only; omega, hft.symm⟩
    · exact ⟨{ c with end_addr := m }, by simp, by simp only; omega, rfl⟩
  · by_cases hxe : x < e
    · rw [if_pos (by omega)]
      have hxE : c = g ∨ x < lastEnd mid f.end_addr := by
        rcases hc with rfl | hc | rfl
        · right; omega
        · exact .inr (hmid hc).2.2
        · exact .inl rfl
      rcases htail with ⟨-, rfl⟩ | ⟨-, hge, rfl⟩ | ⟨-, -, rfl⟩
      · exact ⟨⟨t, m, g.end_addr⟩, by simp, by simp only; omega, rfl⟩
      · refine ⟨⟨t, m, lastEnd mid f.end_addr⟩, by simp, ?_, rfl⟩
        rcases hxE with rfl | hxE <;> simp only <;> omega
      · exact ⟨⟨t, m, e⟩, by simp, by simp only; omega, rfl⟩
    · -- past the request: only `g` reaches there
      rw [if_neg (by omega)]
      have hcg : c = g := by
        rcases hc with rfl | hc | rfl
        · omega
        · have := hmid hc; omega
        · rfl
      subst hcg
      rcases htail with ⟨hgt, rfl⟩ | ⟨-, -, rfl⟩ | ⟨-, -, rfl⟩
      · exact ⟨⟨t, m, c.end_addr⟩, by simp, by simp only; omega, hgt.symm⟩
      · exact ⟨c, by simp, by omega, rfl⟩
      · exact ⟨{ c with start_addr := e }, by simp, by simp only; omega, rfl⟩

theorem tiles_split_span {a b : Nat} (ht : TilesRange a b (f :: (mid ++ [g])))
    (hs : owns s f = true) (he : owns e g = true) :
    TilesRange a b (split_span s e t f g mid) := by
  obtain ⟨h1, h2, -⟩ := lastEnd_bounds ht.apart
  simp only [owns, decide_eq_true_eq] at hs he
  obtain ⟨hfa, hfle, hrest⟩ := ht
  obtain ⟨n, hmid, hgn, hgle, hgb⟩ := tiles_append.mp hrest
  have hE : lastEnd mid f.end_addr = n := lastEnd_tiles hmid
  have hgb : g.end_addr = b := hgb
  obtain ⟨kept, m, tail, heq, hkept, htail⟩ := split_span_cases s e t f g mid
  rw [heq]
  rcases hkept with ⟨-, rfl, rfl⟩ | ⟨-, rfl, rfl⟩ <;>
    rcases htail with ⟨-, rfl⟩ | ⟨-, hge, rfl⟩ | ⟨-, hge, rfl⟩ <;>
    simp only [TilesRange, Tiles, List.nil_append, List.cons_append, true_and] <;> omega

theorem bounds_split_span {P Q : Nat → Prop} (hPs : P s) (hPe : P e) (hQs : Q s) (hQe : Q e)
    (hb : BoundsIn P Q (f :: (mid ++ [g]))) : BoundsIn P Q (split_span s e t f g mid) := by
  have hf := hb f (by simp)
  have hg := hb g (by simp)
  have hE : Q (lastEnd mid f.end_addr) := by
    rcases lastEnd_mem mid f.end_addr with h | ⟨c, hc, h⟩
    · rw [h]; exact hf.2
    · rw [h]; exact (hb c (by simp [hc])).2
  obtain ⟨kept, m, tail, heq, hkept, htail⟩ := split_span_cases s e t f g mid
  rw [heq]
  rcases hkept with ⟨-, rfl, rfl⟩ | ⟨-, rfl, rfl⟩ <;>
    rcases htail with ⟨-, rfl⟩ | ⟨-, hge, rfl⟩ | ⟨-, hge, rfl⟩ <;>
    simp [BoundsIn, hPs, hPe, hQs, hQe, hf, hg, hE]

/-- Replacing the descriptors from `f` to `g` retypes exactly the request. -/
theorem retypes_split_span (hl : Ordered (pre ++ f :: (mid ++ g :: post)))
    (hs : owns s f = true) (he : owns e g = true) :
    Retypes (pre ++ f :: (mid ++ g :: post)) (pre ++ (split_span s e t f g mid ++ post))
      s e t := by
  have hshape : pre ++ f :: (mid ++ g :: post) = pre ++ (f :: (mid ++ [g]) ++ post) := by simp
  rw [hshape] at hl ⊢
  obtain ⟨_, hrest, hsep⟩ := apart_append.mp hl
  obtain ⟨hmid, _, hsep'⟩ := apart_append.mp hrest
  refine retypes_replace _ (ordered_split_span (t := t) hl hs he) ?_ ?_ ?_ ?_
  · intro c hc x hx
    simp only [owns, decide_eq_true_eq] at hs he
    unfold Covers at hx
    rcases List.mem_append.mp hc with hc | hc
    · have := hsep c hc f (by simp)
      omega
    · have := hsep' g (by simp) c hc
      omega
  · exact fun c hc x hx => split_span_covers hmid hs he (by simpa [or_assoc] using hc) hx
  · exact fun a b ht => tiles_split_span ht hs he
  · exact fun P Q hPs hPe hQs hQe hb => bounds_split_span hPs hPe hQs hQe hb

end spans

/-! ## The update as a whole -/

/-- Both ends of a request, in order: one descriptor owns them, or `f` owns the
    first and a later `g` the second. -/
theorem owners_split {l : List vma_desc} {s e : Nat} (hl : Ordered l) (hse : s ≤ e)
    (hs : ∃ d ∈ l, owns s d = true) (he : ∃ d ∈ l, owns e d = true) :
    (∃ pre d post, l = pre ++ d :: post ∧ owns s d = true ∧ owns e d = true) ∨
    (∃ pre f mid g post, l = pre ++ f :: (mid ++ g :: post) ∧
      owns s f = true ∧ owns e g = true) := by
  obtain ⟨f, hf, hs⟩ := hs
  obtain ⟨g, hg, he⟩ := he
  obtain ⟨pre, post, rfl⟩ := List.append_of_mem hf
  simp only [List.mem_append, List.mem_cons] at hg
  rcases hg with hg | rfl | hg
  · -- `g` before `f` would put `e` before `s`
    have hsep := (apart_append.mp hl).2.2 g hg f (by simp)
    simp only [owns, decide_eq_true_eq] at hs he
    omega
  · exact .inl ⟨pre, g, post, rfl, hs, he⟩
  · obtain ⟨mid, post, rfl⟩ := List.append_of_mem hg
    exact .inr ⟨pre, f, mid, g, post, rfl, hs, he⟩

/-- Two descriptors that own `s` and a later address cannot both own `s`, so a
    request over several descriptors is not empty. -/
theorem span_lt {pre mid post : List vma_desc} {f g : vma_desc} {s e : Nat}
    (hl : Ordered (pre ++ f :: (mid ++ g :: post))) (hs : owns s f = true)
    (he : owns e g = true) : s < e := by
  have hsep := (apart_cons.mp (apart_append.mp hl).2.1).2.1 g (by simp)
  simp only [owns, decide_eq_true_eq] at hs he
  omega

/-- A request that is not empty, or whose type is already there, retypes exactly
    its own addresses. -/
theorem insert_area_retypes {l : List vma_desc} {s e : Nat} {t : vma_type} (hl : Ordered l)
    (hse : s ≤ e) (hs : ∃ d ∈ l, owns s d = true) (he : ∃ d ∈ l, owns e d = true)
    (hne : s < e ∨ typeAt l s = some t) :
    ∃ r, insert_area l s e t = some r ∧ Retypes l r.vma_list s e t := by
  rcases owners_split hl hse hs he with ⟨pre, d, post, rfl, hs, he⟩ |
    ⟨pre, f, mid, g, post, rfl, hs, he⟩
  · obtain ⟨taken, heq⟩ := insert_area_single (t := t) hl hs he
    have hd := typeAt_owner hl hs
    by_cases ht : d.type = t
    · rw [if_pos ht] at heq
      refine ⟨_, heq, hl, ?_, fun _ _ h => h, fun _ _ _ _ _ _ h => h⟩
      intro x v hv
      split_ifs with hx
      · have hown : owns x d = true := by
          simp only [owns, decide_eq_true_eq] at hs he ⊢
          omega
        rw [typeAt_owner hl hown, ht]
      · exact hv
    · rw [if_neg ht] at heq
      have hlt : s < e := by
        rcases hne with hlt | hne
        · exact hlt
        · rw [hd] at hne
          exact absurd (Option.some.inj hne) ht
      have hsplit := retypes_split_single hl hs he hse ((d.type.eq_other_iff t).mpr ht)
      have hs' := hsplit.agree s _ hd
      rw [if_pos ⟨Nat.le_refl s, hlt⟩] at hs'
      obtain ⟨r, hr, hmerge⟩ := merge_prev_spec (u := ⟨_, taken, 0⟩) hsplit.ordered hs'
      exact ⟨r, heq.trans hr, hsplit.trans hmerge rfl⟩
  · obtain ⟨taken, released, heq⟩ := insert_area_span (t := t) hl hs he
    have hsplit := retypes_split_span (t := t) hl hs he
    have hs' := hsplit.agree s _ (typeAt_owner hl hs)
    rw [if_pos ⟨Nat.le_refl s, span_lt hl hs he⟩] at hs'
    obtain ⟨r, hr, hmerge⟩ := merge_prev_spec (u := ⟨_, taken, released⟩) hsplit.ordered hs'
    exact ⟨r, heq.trans hr, hsplit.trans hmerge rfl⟩

theorem find_address_owner_some {l : List vma_desc} {x i : Nat}
    (h : find_address_owner l x = some i) : ∃ d ∈ l, owns x d = true := by
  obtain ⟨pre, d, post, rfl, -, hown⟩ := find_address_owner_split h
  exact ⟨d, by simp, hown⟩

/-- A call that has returned has found both owners. -/
theorem insert_area_owned {l : List vma_desc} {s e : Nat} {t : vma_type} {r : area_update}
    (h : insert_area l s e t = some r) :
    (∃ d ∈ l, owns s d = true) ∧ ∃ d ∈ l, owns e d = true := by
  cases hfs : find_address_owner l s with
  | none => simp [insert_area, hfs] at h
  | some i =>
    cases hfe : find_address_owner l e with
    | none => simp [insert_area, hfs, hfe] at h
    | some j => exact ⟨find_address_owner_some hfs, find_address_owner_some hfe⟩

/-- A call that has returned retypes exactly its request when this is not empty. -/
theorem insert_area_some {l : List vma_desc} {s e : Nat} {t : vma_type} {r : area_update}
    (hl : Ordered l) (hse : s < e) (h : insert_area l s e t = some r) :
    Retypes l r.vma_list s e t := by
  obtain ⟨hs, he⟩ := insert_area_owned h
  obtain ⟨r', hr', hret⟩ := insert_area_retypes (t := t) hl (Nat.le_of_lt hse) hs he (.inl hse)
  rw [h] at hr'
  exact Option.some.inj hr' ▸ hret

/-- The walk does not stop at a position that lies behind it. -/
theorem absorb_none {last pos : Nat} (h : last < pos) (m : vma_desc) (l : List vma_desc) :
    absorb last pos m l = none := by
  induction l generalizing pos m with
  | nil => rfl
  | cons c l ih =>
    rw [absorb, if_neg (by omega), ih (by omega)]
    rfl

/-- A request that is empty or ends before its start: it is ignored when its start already has the
    type, and reaches up to the end of the owner otherwise. When the owner of the end is another
    one, the walk runs off the list. -/
theorem insert_area_back {l : List vma_desc} {s e : Nat} {t : vma_type} {r : area_update}
    (hl : Ordered l) (hes : e ≤ s) (h : insert_area l s e t = some r) :
    ∃ pre d post, l = pre ++ d :: post ∧ owns s d = true ∧ owns e d = true ∧
      ((d.type = t ∧ r.vma_list = l) ∨
        (d.type ≠ t ∧ r.vma_list = pre ++ (cut_at s t d ++ post))) := by
  obtain ⟨hs, he⟩ := insert_area_owned h
  rcases owners_split hl hes he hs with ⟨pre, d, post, rfl, he, hs⟩ |
    ⟨pre, f, mid, g, post, rfl, he, hs⟩
  · refine ⟨pre, d, post, rfl, hs, he, ?_⟩
    by_cases ht : d.type = t
    · obtain ⟨taken, heq⟩ := insert_area_single (t := t) hl hs he
      rw [if_pos ht, h] at heq
      obtain rfl := Option.some.inj heq
      exact .inl ⟨ht, rfl⟩
    · obtain ⟨taken, released, hcut⟩ := insert_area_cut hl hs he hes ht
      obtain rfl := Option.some.inj (h.symm.trans hcut)
      exact .inr ⟨ht, rfl⟩
  · exfalso
    have hfe := find_address_owner_eq hl he
    have hfs := find_address_owner_span hl hs
    have hwalk : ∀ k, walk s t pre.length (pre.length + 1 + mid.length) k = none := by
      intro k
      cases k with
      | nil => rfl
      | cons c k =>
        rw [walk]
        split_ifs <;> rw [absorb_none (by omega)] <;> rfl
    have hne : pre.length + 1 + mid.length ≠ pre.length := by omega
    simp [insert_area, hfs, hfe, split_area, hne, hwalk] at h

/-- What a request which has returned has done: it has retyped its addresses; or it is empty, and
    has retyped nothing or the rest of the owner of its start. -/
theorem insert_area_cases {l : List vma_desc} {s e : Nat} {t : vma_type} {r : area_update}
    (hl : Ordered l) (h : insert_area l s e t = some r) :
    (s < e ∧ Retypes l r.vma_list s e t) ∨
      (e ≤ s ∧ typeAt l s = some t ∧ r.vma_list = l) ∨
      (e ≤ s ∧ typeAt l s ≠ some t ∧ ∃ d ∈ l, owns s d = true ∧ owns e d = true ∧
        ⟨t, s, d.end_addr⟩ ∈ r.vma_list ∧ Retypes l r.vma_list s d.end_addr t) := by
  rcases Nat.lt_or_ge s e with hse | hes
  · exact .inl ⟨hse, insert_area_some hl hse h⟩
  · obtain ⟨pre, d, post, rfl, hs, he, ⟨ht, hr⟩ | ⟨ht, hr⟩⟩ := insert_area_back hl hes h
    · exact .inr (.inl ⟨hes, ht ▸ typeAt_owner hl hs, hr⟩)
    · rw [hr]
      refine .inr (.inr ⟨hes, ?_, d, by simp, hs, he, ?_, retypes_cut hl hs⟩)
      · rw [typeAt_owner hl hs]
        simpa using ht
      · unfold cut_at
        split <;> simp

/-- What `insert_area` is for: the call returns, the list fills the same range,
    and its map is the old one with `[s, e[` set to `t`. -/
def IsPointwiseUpdate (a b : Nat) (l : List vma_desc) (s e : Nat) (t : vma_type) : Prop :=
  ∃ r, insert_area l s e t = some r ∧ TilesRange a b r.vma_list ∧
    ∀ x, typeAt r.vma_list x = if s ≤ x ∧ x < e then some t else typeAt l x

/-- Outside the tiled range no address has a type. -/
theorem typeAt_none_iff {a b : Nat} {l : List vma_desc} (h : TilesRange a b l) (x : Nat) :
    typeAt l x = none ↔ ¬ (a ≤ x ∧ x < b) := by
  rw [← h.covered_iff x]
  simp [typeAt, lookup_none_iff]

/-- On a tiling, `insert_area` is the pointwise update exactly when the request is
    not empty or the address it names already has the type. -/
theorem insert_area_pointwise_iff (a b : Nat) (l : List vma_desc) (s e : Nat) (t : vma_type)
    (hl : TilesRange a b l) (hse : s ≤ e)
    (hs : ∃ d ∈ l, owns s d = true) (he : ∃ d ∈ l, owns e d = true) :
    IsPointwiseUpdate a b l s e t ↔ s < e ∨ typeAt l s = some t := by
  constructor
  · rintro ⟨r, hr, -, hmap⟩
    by_contra hcon
    push Not at hcon
    obtain ⟨hes, htype⟩ := hcon
    obtain rfl : s = e := by omega
    obtain ⟨d, hd, hown⟩ := hs
    obtain ⟨pre, post, rfl⟩ := List.append_of_mem hd
    have hd := typeAt_owner hl.apart hown
    have hne : d.type ≠ t := by
      rintro rfl
      exact htype hd
    obtain ⟨taken, released, hcut⟩ := insert_area_cut hl.apart hown hown (Nat.le_refl s) hne
    obtain rfl := Option.some.inj (hr.symm.trans hcut)
    have hlt : s < d.end_addr := by
      simp only [owns, decide_eq_true_eq] at hown
      exact hown.2
    have htype' := (retypes_cut (t := t) hl.apart hown).agree s _ hd
    rw [if_pos ⟨Nat.le_refl s, hlt⟩, hmap, if_neg (by omega)] at htype'
    exact htype htype'
  · intro hne
    obtain ⟨r, hr, hret⟩ := insert_area_retypes hl.apart hse hs he hne
    refine ⟨r, hr, hret.tiles a b hl, ?_⟩
    intro x
    obtain ⟨ds, hds, hs⟩ := hs
    obtain ⟨de, hde, he⟩ := he
    have hbs := hl.bounds ds hds
    have hbe := hl.bounds de hde
    simp only [owns, decide_eq_true_eq] at hs he
    cases hx : typeAt l x with
    | none =>
      have hout := (typeAt_none_iff hl x).mp hx
      rw [(typeAt_none_iff (hret.tiles a b hl) x).mpr hout, if_neg (by omega)]
    | some v =>
      rw [hret.agree x v hx]
      split_ifs <;> rfl


/-- The list `mmap_init` builds for arm64: the guest space, then one page that
    gives the end of that space an owner. -/
def arm64_initial_list : List vma_desc :=
  [⟨.VMA_UNMAP, 0x400000, 0x7000000000⟩, ⟨.VMA_MAP, 0x7000000000, 0x7000001000⟩]

/-- The first page a kernel-chosen `mmap` takes on arm64 is a pointwise update. -/
theorem insert_area_pointwise_first_page :
    IsPointwiseUpdate 0x400000 0x7000001000 arm64_initial_list 0x4000000000 0x4000001000
      .VMA_MAP :=
  (insert_area_pointwise_iff _ _ _ _ _ _ (by decide) (by decide)
    ⟨⟨.VMA_UNMAP, 0x400000, 0x7000000000⟩, by decide, by decide⟩
    ⟨⟨.VMA_UNMAP, 0x400000, 0x7000000000⟩, by decide, by decide⟩).mpr (.inl (by decide))

/-- The request of a kernel-chosen `mmap` of length 0 on the initial list: it is
    empty, and yet the whole space above the cursor becomes mapped. -/
theorem insert_area_empty_request :
    TilesRange 0x400000 0x7000001000 arm64_initial_list ∧
    (∃ d ∈ arm64_initial_list, owns 0x4000000000 d = true) ∧
    ¬ IsPointwiseUpdate 0x400000 0x7000001000 arm64_initial_list 0x4000000000 0x4000000000
      .VMA_MAP := by
  refine ⟨by decide, ⟨⟨.VMA_UNMAP, 0x400000, 0x7000000000⟩, by decide, by decide⟩, ?_⟩
  rintro ⟨r, hr, -, hmap⟩
  have hrun : insert_area arm64_initial_list 0x4000000000 0x4000000000 .VMA_MAP =
      some ⟨[⟨.VMA_UNMAP, 0x400000, 0x4000000000⟩, ⟨.VMA_MAP, 0x4000000000, 0x7000000000⟩,
        ⟨.VMA_MAP, 0x7000000000, 0x7000001000⟩], 2, 1⟩ := by decide
  obtain rfl := Option.some.inj (hrun.symm.trans hr)
  exact absurd (hmap 0x5000000000) (by decide)

end Umeq.Memory
