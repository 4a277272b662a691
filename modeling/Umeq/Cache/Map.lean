import Umeq.Cache.Log

/-! # Runs of the cache interface

    The history of a run says for each cache what was appended since its last
    reset, and whether a clean was requested, while it was registered, that no
    lookup has followed yet. `Obeys` states what a call owes to that history:
    a lookup answers with the last block appended for its pc, the first lookup
    after a clean request empties the cache, and the event flag tells resets.

    Two things break it, and `keeps_map` leaves them out: an `append` for a pc
    that the `cached` slot of its hash already answers for (the slot keeps the old
    block), and an `append` that finds the area full while its cache is marked for
    cleaning (the mark is lost with the reset). A cache that was removed is no
    longer reached by clean requests.
-/

namespace Umeq.Cache

open Bytes

/-! ## Histories -/

/-- What a run has done to one cache. -/
structure history where
  /-- The blocks appended since the last reset, the last one first. -/
  log : List entry
  /-- A clean was requested and no lookup has followed. -/
  owed : Bool

/-- The caches with the history of each. -/
structure tracked where
  caches : caches
  history : Nat → history

/-- `reset` has run on the cache between the two states. -/
def was_reset (w w' : caches) (cache : Nat) : Prop :=
  (w.cache cache).map (·.resets) ≠ (w'.cache cache).map (·.resets)

instance (w w' : caches) (cache : Nat) : Decidable (was_reset w w' cache) :=
  inferInstanceAs (Decidable (_ ≠ _))

/-- The history after a call that led from `w` to `w'` and returned `res`. -/
def observe (w w' : caches) (res : result) (g : Nat → history) : call → Nat → history
  | .createCache memory _ _ => Function.update g memory ⟨[], false⟩
  | .lookup cache _ => Function.update g cache
      ⟨if was_reset w w' cache then [] else (g cache).log, false⟩
  | .append cache pc data => Function.update g cache
      ⟨⟨pc, res.ptr, data⟩ :: (if was_reset w w' cache then [] else (g cache).log),
        (g cache).owed⟩
  | .removeCache _ => g
  | .cleanCaches => fun cache => if cache ∈ w.root then ⟨(g cache).log, true⟩ else g cache

/-- The runs of the interface, from a process without caches. -/
def cache_runs : Runs.System tracked call where
  init := ⟨⟨fun _ => none, [], false⟩, fun _ => ⟨[], false⟩⟩
  exec := fun t c => do
    let (w, res) ← c.exec t.caches
    some ⟨w, observe t.caches w res t.history c⟩

/-! ## The law of a map with whole-cache invalidation -/

/-- The calls a user of the interface makes: on caches that exist, with a pc of 64
    bits and with code that fits the area. -/
def valid_call (w : caches) : call → Prop
  | .createCache memory size _ => memory ≠ 0 ∧ size ≥ MIN_CACHE_SIZE ∧ memory ∉ w.root ∧
      memory + size ≤ 2 ^ 64
  | .lookup cache pc => (∃ c, w.cache cache = some c) ∧ pc < 2 ^ 64
  | .append cache pc data => (∃ c, w.cache cache = some c ∧
      data.length + sizeof_tb ≤ c.jitter_area_size) ∧ pc < 2 ^ 64
  | .removeCache cache => cache ∈ w.root
  | .cleanCaches => True

/-- The live entries of a cache are in its area, apart from one another, with the
    bytes they were appended with. -/
def Live (c : internal_cache) (log : List entry) : Prop :=
  (∀ e ∈ log, c.area ≤ e.tb ∧ e.ptr + e.data.length ≤ c.area + c.jitter_area_size ∧
    c.mem.read e.ptr e.data.length = e.data) ∧
  log.Pairwise fun e e' => e'.ptr + e'.data.length ≤ e.tb

/-- What a call owes to the history. -/
def Obeys (t : tracked) : call → Prop
  | .lookup cache pc => ∃ w' res, (call.lookup cache pc).exec t.caches = some (w', res) ∧
      res.ptr = (if was_reset t.caches w' cache then 0 else answer pc (t.history cache).log) ∧
      (res.cache_clean_event = true ↔ was_reset t.caches w' cache) ∧
      ((t.history cache).owed → res = ⟨0, true⟩)
  | .append cache pc data => ∃ w' res, (call.append cache pc data).exec t.caches = some (w', res) ∧
      (res.cache_clean_event = true ↔ was_reset t.caches w' cache)
  | c => ∃ w' res, c.exec t.caches = some (w', res) ∧ res.cache_clean_event = false

/-- The conditions under which a call keeps the caches in line with their history. -/
def keeps_map (t : tracked) : call → Prop
  | .lookup cache _ => cache ∈ t.caches.root ∨ (t.history cache).owed = false
  | .append cache pc data => ∀ c, t.caches.cache cache = some c →
      (¬ area_full c data.length → ¬ slot_holds c pc) ∧
      (area_full c data.length → c.clean = false ∨ t.caches.is_cache_clean_need = true)
  | _ => True

/-! ## The invariant -/

structure InLine (t : tracked) : Prop where
  registered : ∀ m ∈ t.caches.root, ∃ c, t.caches.cache m = some c
  represents : ∀ m c, t.caches.cache m = some c → Represents c (t.history m).log
  owed : ∀ m c, (t.history m).owed = true → m ∈ t.caches.root → t.caches.cache m = some c →
    c.clean = true ∨ t.caches.is_cache_clean_need = true

/-- A marked cache stands for the same log. -/
theorem represents_ll_clean_cache {c : internal_cache} {log : List entry} (h : Represents c log) :
    Represents (ll_clean_cache c) log :=
  ⟨h.stacked, h.fits, h.area_pos, h.space, h.pcs, h.list, h.cached⟩

/-- The caches after the start of a lookup: as before, or marked. -/
theorem handle_clean_cache {w : caches} {m : Nat} {c : internal_cache}
    (h : (handle_clean w).cache m = some c) : ∃ c₀, w.cache m = some c₀ ∧
      ((c = c₀ ∧ (m ∈ w.root → w.is_cache_clean_need = false)) ∨
       (c = ll_clean_cache c₀ ∧ w.is_cache_clean_need = true)) := by
  unfold handle_clean at h
  split_ifs at h with hneed
  · simp only [ll_clean_caches] at h
    split_ifs at h with hroot
    · obtain ⟨c₀, hc₀, rfl⟩ := Option.map_eq_some_iff.mp h
      exact ⟨c₀, hc₀, .inr ⟨rfl, hneed⟩⟩
    · exact ⟨c, h, .inl ⟨rfl, fun hm => absurd hm hroot⟩⟩
  · exact ⟨c, h, .inl ⟨rfl, fun _ => by simpa using hneed⟩⟩

theorem handle_clean_need (w : caches) : (handle_clean w).is_cache_clean_need = false := by
  unfold handle_clean
  split_ifs with h
  · rfl
  · simpa using h

theorem handle_clean_root (w : caches) : (handle_clean w).root = w.root := by
  unfold handle_clean
  split_ifs <;> rfl

/-- The start of a lookup keeps the invariant. -/
theorem InLine.handle_clean {t : tracked} (h : InLine t) :
    InLine ⟨Cache.handle_clean t.caches, t.history⟩ := by
  refine ⟨?_, ?_, ?_⟩
  · intro m hm
    rw [handle_clean_root] at hm
    obtain ⟨c, hc⟩ := h.registered m hm
    unfold Cache.handle_clean
    split_ifs
    · exact ⟨ll_clean_cache c, by simp [ll_clean_caches, hm, hc]⟩
    · exact ⟨c, hc⟩
  · intro m c hc
    obtain ⟨c₀, hc₀, ⟨rfl, -⟩ | ⟨rfl, -⟩⟩ := handle_clean_cache hc
    · exact h.represents m c hc₀
    · exact represents_ll_clean_cache (h.represents m c₀ hc₀)
  · intro m c howed hm hc
    rw [handle_clean_root] at hm
    obtain ⟨c₀, hc₀, ⟨rfl, hneed⟩ | ⟨rfl, -⟩⟩ := handle_clean_cache hc
    · rcases h.owed m c howed hm hc₀ with hclean | hneed'
      · exact .inl hclean
      · rw [hneed hm] at hneed'
        cases hneed'
    · exact .inl rfl

/-- A call that changes one cache. -/
theorem InLine.update {w : caches} {g : Nat → history} {m : Nat} {c : internal_cache}
    {log : List entry} {owed : Bool} (h : InLine ⟨w, g⟩) (hrep : Represents c log)
    (howed : owed = true → m ∈ w.root → c.clean = true ∨ w.is_cache_clean_need = true) :
    InLine ⟨{ w with cache := Function.update w.cache m (some c) },
      Function.update g m ⟨log, owed⟩⟩ := by
  refine ⟨?_, ?_, ?_⟩
  · intro m' hm'
    by_cases hm : m' = m
    · exact ⟨c, by simp [hm]⟩
    · obtain ⟨c', hc'⟩ := h.registered m' hm'
      exact ⟨c', by simpa [Function.update_of_ne hm] using hc'⟩
  · intro m' c' hc'
    by_cases hm : m' = m
    · subst hm
      simp only [Function.update_self, Option.some.injEq] at hc'
      subst hc'
      simpa using hrep
    · simp only [Function.update_of_ne hm] at hc' ⊢
      exact h.represents m' c' hc'
  · intro m' c' howed' hm' hc'
    by_cases hm : m' = m
    · subst hm
      simp only [Function.update_self, Option.some.injEq] at hc' howed'
      subst hc'
      exact howed howed' hm'
    · simp only [Function.update_of_ne hm] at hc' howed'
      exact h.owed m' c' howed' hm' hc'

/-! ## The calls keep it -/

/-- What a call does from a state in line with its history. -/
def Steps (t : tracked) (c : call) (Q : caches → result → Prop) : Prop :=
  ∃ w' res, c.exec t.caches = some (w', res) ∧
    InLine ⟨w', observe t.caches w' res t.history c⟩ ∧ Q w' res

theorem lookup_step {t : tracked} {m pc : Nat} (h : InLine t)
    (hex : ∃ c, t.caches.cache m = some c)
    (hreg : m ∈ t.caches.root ∨ (t.history m).owed = false) :
    Steps t (.lookup m pc) fun w' res =>
      res.ptr = (if was_reset t.caches w' m then 0 else answer pc (t.history m).log) ∧
      (res.cache_clean_event = true ↔ was_reset t.caches w' m) ∧
      ((t.history m).owed → res = ⟨0, true⟩) := by
  have hclean := h.handle_clean
  obtain ⟨c, hc, hresets⟩ : ∃ c, (handle_clean t.caches).cache m = some c ∧
      (t.caches.cache m).map (·.resets) = some c.resets := by
    obtain ⟨c₀, hc₀⟩ := hex
    unfold handle_clean
    split_ifs
    · by_cases hm : m ∈ t.caches.root
      · exact ⟨ll_clean_cache c₀, by simp [ll_clean_caches, hm, hc₀], by simp [hc₀, ll_clean_cache]⟩
      · exact ⟨c₀, by simp [ll_clean_caches, hm, hc₀], by simp [hc₀]⟩
    · exact ⟨c₀, hc₀, by simp [hc₀]⟩
  have hrep := hclean.represents m c hc
  cases hmark : c.clean with
  | true =>
    have hrun : (call.lookup m pc).exec t.caches = some ({ handle_clean t.caches with
        cache := Function.update (handle_clean t.caches).cache m (some (reset c)) }, ⟨0, true⟩) := by
      simp [call.exec, hc, lookup, hmark]
    refine ⟨_, _, hrun, ?_⟩
    have hwas : was_reset t.caches { handle_clean t.caches with
        cache := Function.update (handle_clean t.caches).cache m (some (reset c)) } m := by
      simp [was_reset, hresets, reset]
    refine ⟨?_, by simp [hwas], by simp [hwas], fun _ => rfl⟩
    simp only [observe, hwas, if_true]
    exact hclean.update (represents_reset hrep.area_pos hrep.space) (by simp)
  | false =>
    obtain ⟨f, hlook, hrep'⟩ := lookup_spec pc hrep hmark
    have hrun : (call.lookup m pc).exec t.caches = some ({ handle_clean t.caches with
        cache := Function.update (handle_clean t.caches).cache m (some { c with cached := f }) },
          ⟨answer pc (t.history m).log, false⟩) := by
      simp [call.exec, hc, hlook]
    refine ⟨_, _, hrun, ?_⟩
    have hwas : ¬ was_reset t.caches { handle_clean t.caches with
        cache := Function.update (handle_clean t.caches).cache m (some { c with cached := f }) } m := by
      simp [was_reset, hresets]
    have howed : (t.history m).owed = false := by
      by_contra ho
      have ho : (t.history m).owed = true := by simpa using ho
      have hroot : m ∈ (handle_clean t.caches).root := by
        rw [handle_clean_root]
        exact hreg.resolve_right (by simp [ho])
      rcases hclean.owed m c ho hroot hc with hmark' | hneed
      · rw [hmark] at hmark'
        cases hmark'
      · rw [handle_clean_need] at hneed
        cases hneed
    refine ⟨?_, by simp [hwas], by simp [hwas], by simp [howed]⟩
    simp only [observe, hwas, if_false]
    exact hclean.update hrep' (by simp)

theorem append_step {t : tracked} {m pc : Nat} {data : List UInt8} (h : InLine t)
    {c : internal_cache} (hc : t.caches.cache m = some c) (hpc : pc < 2 ^ 64)
    (hfits : data.length + sizeof_tb ≤ c.jitter_area_size)
    (hslot : ¬ area_full c data.length → ¬ slot_holds c pc)
    (hmark : area_full c data.length → c.clean = false ∨ t.caches.is_cache_clean_need = true) :
    Steps t (.append m pc data) fun w' res =>
      (res.cache_clean_event = true ↔ was_reset t.caches w' m) := by
  obtain ⟨c', ptr, happ, hrep', hclean', hresets'⟩ :=
    append_spec (h.represents m c hc) hpc hfits hslot
  have hrun : (call.append m pc data).exec t.caches = some ({ t.caches with
      cache := Function.update t.caches.cache m (some c') },
        ⟨ptr, decide (area_full c data.length)⟩) := by
    simp [call.exec, hc, happ]
  have hwas : was_reset t.caches { t.caches with
      cache := Function.update t.caches.cache m (some c') } m ↔ area_full c data.length := by
    by_cases hfull : area_full c data.length <;> simp [was_reset, hc, hresets', hfull]
  refine ⟨_, _, hrun, ?_, by simp [hwas]⟩
  simp only [observe, hwas]
  refine h.update hrep' ?_
  intro howed hroot
  rcases h.owed m c howed hroot hc with hcl | hneed
  · by_cases hfull : area_full c data.length
    · rcases hmark hfull with hno | hneed
      · rw [hno] at hcl
        cases hcl
      · exact .inr hneed
    · exact .inl (by simp [hclean', hfull, hcl])
  · exact .inr hneed

theorem createCache_step {t : tracked} {m size : Nat} {contents : Mem} (h : InLine t)
    (hm : m ≠ 0) (hsize : size ≥ MIN_CACHE_SIZE) (hfresh : m ∉ t.caches.root)
    (hspace : m + size ≤ 2 ^ 64) :
    Steps t (.createCache m size contents) fun _ res => res.cache_clean_event = false := by
  have hmin : sizeof_internal_cache ≤ MIN_CACHE_SIZE := by decide
  refine ⟨_, _, by simp only [call.exec, createCache, hm, hsize, hfresh, ne_eq, not_false_eq_true,
    and_self, if_true]; rfl, ?_, rfl⟩
  have hnew := represents_reset (c := init_acache m size contents)
    (by simp only [init_acache]; omega) (by simp only [init_acache]; omega)
  have hup : InLine ⟨{ t.caches with
      cache := Function.update t.caches.cache m (some (reset (init_acache m size contents))) },
      Function.update t.history m ⟨[], false⟩⟩ := h.update hnew (by simp)
  refine ⟨?_, hup.represents, ?_⟩
  · intro m' hm'
    rcases List.mem_cons.mp hm' with rfl | hm'
    · exact ⟨reset (init_acache m' size contents), by simp⟩
    · exact hup.registered m' hm'
  · intro m' c howed hm' hc
    rcases List.mem_cons.mp hm' with rfl | hm'
    · simp [observe] at howed
    · exact hup.owed m' c howed hm' hc

theorem removeCache_step {t : tracked} {m : Nat} (h : InLine t) (hm : m ∈ t.caches.root) :
    Steps t (.removeCache m) fun _ res => res.cache_clean_event = false := by
  refine ⟨_, _, by simp only [call.exec, removeCache, hm, if_true]; rfl, ?_, rfl⟩
  refine ⟨?_, h.represents, ?_⟩
  · exact fun m' hm' => h.registered m' (List.mem_of_mem_erase hm')
  · exact fun m' c howed hm' hc => h.owed m' c howed (List.mem_of_mem_erase hm') hc

theorem cleanCaches_step {t : tracked} (h : InLine t) :
    Steps t .cleanCaches fun _ res => res.cache_clean_event = false := by
  refine ⟨_, _, rfl, ?_, rfl⟩
  refine ⟨h.registered, ?_, fun _ _ _ _ _ => .inr rfl⟩
  intro m c hc
  have := h.represents m c hc
  simp only [observe]
  split_ifs <;> exact this

/-- The step lemma. -/
theorem call_step {t : tracked} {c : call} (h : InLine t) (hvalid : valid_call t.caches c)
    (hkeep : keeps_map t c) : Steps t c (fun _ _ => True) ∧ Obeys t c := by
  cases c with
  | createCache m size contents =>
    obtain ⟨hm, hsize, hfresh, hspace⟩ := hvalid
    obtain ⟨w', res, hrun, hin, hev⟩ := createCache_step h hm hsize hfresh hspace
    exact ⟨⟨w', res, hrun, hin, trivial⟩, w', res, hrun, hev⟩
  | lookup m pc =>
    obtain ⟨w', res, hrun, hin, hq⟩ := lookup_step h hvalid.1 hkeep
    exact ⟨⟨w', res, hrun, hin, trivial⟩, w', res, hrun, hq⟩
  | append m pc data =>
    obtain ⟨⟨c, hc, hfits⟩, hpc⟩ := hvalid
    obtain ⟨hslot, hmark⟩ := hkeep c hc
    obtain ⟨w', res, hrun, hin, hq⟩ := append_step h hc hpc hfits hslot hmark
    exact ⟨⟨w', res, hrun, hin, trivial⟩, w', res, hrun, hq⟩
  | removeCache m =>
    obtain ⟨w', res, hrun, hin, hev⟩ := removeCache_step h hvalid
    exact ⟨⟨w', res, hrun, hin, trivial⟩, w', res, hrun, hev⟩
  | cleanCaches =>
    obtain ⟨w', res, hrun, hin, hev⟩ := cleanCaches_step h
    exact ⟨⟨w', res, hrun, hin, trivial⟩, w', res, hrun, hev⟩

theorem Represents.live {c : internal_cache} {log : List entry} (h : Represents c log) :
    Live c log := by
  have hfits := h.fits
  have hspace := h.space
  refine ⟨fun e he => ?_, h.stacked.apart⟩
  have hb := h.stacked.bounds e he
  have hf := h.stacked.fields (by omega) h.pcs e he
  refine ⟨?_, by omega, hf.2⟩
  unfold entry.tb
  omega

/-- A state of a run: its caches are in line with their history. -/
def run_ok (t : tracked) (c : call) : Prop := valid_call t.caches c ∧ keeps_map t c

theorem reach_in_line {t : tracked} (h : cache_runs.Reach run_ok t) : InLine t := by
  refine h.invariant ?_ ?_
  · exact ⟨by simp [cache_runs], by simp [cache_runs], by simp [cache_runs]⟩
  · intro s c s' hs hok hexec
    obtain ⟨⟨w', res, hrun, hin, -⟩, -⟩ := call_step hs hok.1 hok.2
    simp only [cache_runs, hrun, Option.bind_eq_bind, Option.bind_some, Option.some.injEq] at hexec
    exact hexec ▸ hin

/-- In every run whose calls meet their conditions, the live entries of a cache are
    apart and keep their bytes, and the next call obeys the history: a lookup
    returns the last block appended for its pc since the last reset, or null; the
    first lookup after a clean request returns null and empties the cache; and the
    event is set by the calls that reset the cache. -/
theorem cache_is_map (t : tracked) (h : cache_runs.Reach run_ok t) :
    (∀ m c, t.caches.cache m = some c → Live c (t.history m).log) ∧
    ∀ c, run_ok t c → Obeys t c := by
  have hin := reach_in_line h
  exact ⟨fun m c hc => (hin.represents m c hc).live, fun c hok => (call_step hin hok.1 hok.2).2⟩

/-- A cache of the smallest size, with memory full of zeros. -/
def small_cache : call := .createCache 0x10000 MIN_CACHE_SIZE fun _ => 0

/-- A cache with one block in it. -/
theorem cache_is_map_one_block : ∃ t, cache_runs.Reach run_ok t ∧
    (t.history 0x10000).log.map entry.data = [[0xc3]] ∧ Obeys t (.lookup 0x10000 0x8000) := by
  obtain ⟨t, ht, hlog, hok⟩ : ∃ t, cache_runs.Reach run_ok t ∧
      (t.history 0x10000).log.map entry.data = [[0xc3]] ∧
      run_ok t (.lookup 0x10000 0x8000) := by
    refine ⟨_, .step (.step .init (l := small_cache) ⟨?_, trivial⟩ rfl)
      (l := .append 0x10000 0x8000 [0xc3]) ⟨?_, ?_⟩ rfl, rfl, ⟨⟨_, rfl⟩, by decide⟩, .inr rfl⟩
    · exact ⟨by decide, by decide, by decide, by decide⟩
    · exact ⟨⟨_, rfl, by decide⟩, by decide⟩
    · intro c hc
      obtain rfl := Option.some.inj hc
      exact ⟨fun _ hs => hs.1 rfl, fun _ => .inl rfl⟩
  exact ⟨t, ht, hlog, (cache_is_map t ht).2 _ hok⟩

/-- The same pc appended again after a lookup: the lookup that follows still gives
    the first block. -/
theorem reappend_gives_old_block : ∃ t, cache_runs.Reach (fun t c => valid_call t.caches c) t ∧
    valid_call t.caches (.lookup 0x10000 0x8000) ∧ ¬ Obeys t (.lookup 0x10000 0x8000) := by
  refine ⟨_, .step (.step (.step (.step .init (l := small_cache) ?_ rfl)
    (l := .append 0x10000 0x8000 [0xc3]) ?_ rfl) (l := .lookup 0x10000 0x8000) ?_ rfl)
    (l := .append 0x10000 0x8000 [0x90]) ?_ rfl, ⟨⟨_, rfl⟩, by decide⟩, ?_⟩
  · exact ⟨by decide, by decide, by decide, by decide⟩
  · exact ⟨⟨_, rfl, by decide⟩, by decide⟩
  · exact ⟨⟨_, rfl⟩, by decide⟩
  · exact ⟨⟨_, rfl, by decide⟩, by decide⟩
  · rintro ⟨w', res, hrun, hptr, -⟩
    obtain ⟨rfl, rfl⟩ := Prod.mk.inj (Option.some.inj hrun)
    exact absurd hptr (by decide)

end Umeq.Cache
