import ExpertStreaming.RamCache.Invariant

/-! # The RAM expert cache: `observe` and `touch`

Both only reorder `by_recency_`. Entries have distinct keys, so two of them never
compare equivalent under `lru_less` and a set lookup finds the entry itself. An
exception leaves out the nodes that were extracted, never anything else.
-/
namespace ExpertStreaming.RamCache
open Lib State

variable {p : Params} {s t : State}

/-! ## The order -/

def lruRank (p : Params) (a : Entry) : ℕ ×ₗ (ℕ ×ₗ (ℕ ×ₗ ExpertKey)) :=
  toLex (a.frequency, toLex (a.lastUsed, toLex (a.insertionOrder, (p.descriptor a.desc).key)))

theorem lruLess_iff (p : Params) (a b : Entry) :
    lruLess p a b = true ↔ lruRank p a < lruRank p b := by
  simp only [lruRank, Prod.Lex.toLex_lt_toLex, lruLess]
  split
  next hf => simp [hf]
  next hf =>
  split
  next hu => simp [not_not.mp hf, hu]
  next hu =>
  split
  next ho => simp [not_not.mp hf, not_not.mp hu, ho]
  next ho => simp [not_not.mp hf, not_not.mp hu, not_not.mp ho]

theorem lruLess_irrefl (p : Params) (a : Entry) : lruLess p a a = false := by
  rw [Bool.eq_false_iff, ne_eq, lruLess_iff]; exact lt_irrefl _

theorem lruLess_trans {a b c} (h : lruLess p a b = true) (h' : lruLess p b c = true) :
    lruLess p a c = true := by
  rw [lruLess_iff] at *; exact h.trans h'

theorem lruEquiv_self (p : Params) (s : State) (e : EntryId) : s.lruEquiv p e e = true := by
  simp [lruEquiv, lruLess_irrefl]

variable {a b e : EntryId}

theorem lruLess_of_not_equiv (h : s.lruEquiv p a b = false)
    (h' : lruLess p (s.heap a) (s.heap b) = false) : lruLess p (s.heap b) (s.heap a) = true := by
  simpa [lruEquiv, h'] using h

theorem keyOf_of_lruEquiv (h : s.lruEquiv p a b = true) :
    s.keyOf p a = s.keyOf p b := by
  simp only [lruEquiv, Bool.and_eq_true, Bool.not_eq_true', Bool.eq_false_iff, ne_eq,
    lruLess_iff, not_lt] at h
  have hrank : lruRank p (s.heap a) = lruRank p (s.heap b) := le_antisymm h.2 h.1
  simp only [lruRank, EmbeddingLike.apply_eq_iff_eq, Prod.mk.injEq] at hrank
  exact hrank.2.2.2

theorem State.Resident.eq_of_key (ha : s.Resident p a) (hb : s.Resident p b)
    (h : s.keyOf p a = s.keyOf p b) : a = b := by
  have hb' := hb
  rw [State.Resident, ← h, ha] at hb'
  exact Option.some.inj hb'

theorem State.Resident.eq_of_equiv (ha : s.Resident p a) (hb : s.Resident p b)
    (h : s.lruEquiv p a b = true) : a = b :=
  ha.eq_of_key hb (keyOf_of_lruEquiv h)

theorem Retention.nodup (hr : Retention p s) : s.byRecency.Nodup :=
  hr.sorted.imp fun {a b} h he => by
    rw [he, lruLess_irrefl] at h; cases h

/-! ## Set operations -/

theorem lruPlace_sorted {l} (hl : l.Pairwise fun a b => lruLess p (s.heap a) (s.heap b) = true)
    (hne : ∀ x ∈ l, s.lruEquiv p e x = false) :
    (s.lruPlace p e l).Pairwise fun a b => lruLess p (s.heap a) (s.heap b) = true := by
  unfold lruPlace
  induction l with
  | nil => simp
  | cons x rest ih =>
    obtain ⟨hx, hrest⟩ := List.pairwise_cons.mp hl
    rw [List.orderedInsert_cons]
    split
    next hlt =>
      refine List.pairwise_cons.mpr ⟨?_, hl⟩
      intro y hy
      rcases List.mem_cons.mp hy with rfl | hy
      · exact hlt
      · exact lruLess_trans hlt (hx y hy)
    next hge =>
    refine List.pairwise_cons.mpr
      ⟨?_, ih hrest fun y hy => hne y (List.mem_cons_of_mem _ hy)⟩
    intro y hy
    rcases (List.mem_orderedInsert _).mp hy with rfl | hy
    · exact lruLess_of_not_equiv (hne x List.mem_cons_self) (Bool.eq_false_iff.mpr hge)
    · exact hx y hy

theorem lruInsert_of_fresh (h : ∀ x ∈ s.byRecency, s.lruEquiv p e x = false) :
    s.lruInsert p e = some { s with byRecency := s.lruPlace p e s.byRecency } := by
  unfold lruInsert
  rw [if_neg]
  simpa using h

theorem find_lruEquiv_eq {x} (hr : Retention p s) (he : s.Resident p e)
    (h : s.byRecency.find? (s.lruEquiv p e) = some x) : x = e ∧ e ∈ s.byRecency := by
  have hx := List.mem_of_find?_eq_some h
  have heq := he.eq_of_equiv (hr.resident x hx) (by simpa using List.find?_some h)
  exact ⟨heq.symm, heq ▸ hx⟩

theorem find_lruEquiv_of_mem (hr : Retention p s) (he : e ∈ s.byRecency) :
    s.byRecency.find? (s.lruEquiv p e) = some e := by
  cases hf : s.byRecency.find? (s.lruEquiv p e) with
  | none => simpa [lruEquiv_self] using List.find?_eq_none.mp hf e he
  | some x => rw [(find_lruEquiv_eq hr (hr.resident e he) hf).1]

/-! ## Steps that only reorder -/

/-- The step reordered `by_recency_`, perhaps losing nodes, and forgot no observation. -/
structure Reorders (p : Params) (s t : State) : Prop where
  quiet : Quiet s t
  retention : Retention p t
  subset : ∀ e ∈ t.byRecency, e ∈ s.byRecency
  observed : ∀ k, (s.observations.find? k).isSome → (t.observations.find? k).isSome
  canonical : t.canonical = s.canonical

theorem Reorders.trans {u} (h : Reorders p s t) (h' : Reorders p t u) :
    Reorders p s u where
  quiet := h.quiet.trans h'.quiet
  retention := h'.retention
  subset e he := h.subset e (h'.subset e he)
  observed k hk := h'.observed k (h.observed k hk)
  canonical := h'.canonical.trans h.canonical

/-- A change of recency fields. -/
structure RecencyOnly (f : Entry → Entry) : Prop where
  desc : ∀ x, (f x).desc = x.desc
  data : ∀ x, (f x).data = x.data
  arenaOffset : ∀ x, (f x).arenaOffset = x.arenaOffset
  pins : ∀ x, (f x).pins = x.pins
  ready : ∀ x, (f x).ready = x.ready
  reservedBy : ∀ x, (f x).reservedBy = x.reservedBy

theorem RecencyOnly.stamp (used frequency order : Entry → Nat) : RecencyOnly fun x =>
    { x with lastUsed := used x, frequency := frequency x, insertionOrder := order x } :=
  ⟨fun _ => rfl, fun _ => rfl, fun _ => rfl, fun _ => rfl, fun _ => rfl, fun _ => rfl⟩

theorem Quiet.of_recency {f : EntryId → Entry → Entry} (hf : ∀ e, RecencyOnly (f e))
    (horder : List EntryId) (hobs : OrdMap ExpertKey Nat) (c i q : Nat) :
    Quiet s { s with
      heap := fun e => f e (s.heap e), byRecency := horder, observations := hobs,
      clock := c, insertionClock := i, frequencyClock := q } where
  entries := rfl
  byOffset := rfl
  pendingMap := rfl
  next := rfl
  desc e := (hf e).desc _
  data _ := (hf _).data _
  arenaOffset _ := (hf _).arenaOffset _
  ready _ := (hf _).ready _
  reservedBy e := (hf e).reservedBy _
  state _ := rfl
  result _ := rfl
  victims _ := rfl
  stagingOffset _ := rfl
  claimOffset _ := rfl
  error _ := rfl
  canonical _ _ h := h
  pins e := (hf e).pins _
  useCount _ := rfl
  leases := rfl
  nextLease := rfl
  calls := rfl
  staging := rfl
  arena := rfl
  residentBytes := rfl
  reservedBytes := rfl
  stagingUsedBytes := rfl
  activeLoads := rfl

theorem Quiet.modifyEntry (e : EntryId) {f : Entry → Entry} (hf : RecencyOnly f) :
    Quiet s (s.modifyEntry e f) := by
  refine Quiet.of_recency (f := fun i x => if i = e then f x else x) (fun i => ?_) _ _ _ _ _
  by_cases hi : i = e
  · simpa only [hi, if_true] using hf
  · simp only [hi, if_false]
    constructor <;> intro x <;> rfl

theorem Quiet.reorder (order : List EntryId) (obs : OrdMap ExpertKey Nat) (c i q : Nat) :
    Quiet s { s with
      byRecency := order, observations := obs, clock := c, insertionClock := i,
      frequencyClock := q } :=
  Quiet.of_recency (f := fun _ x => x) (fun _ => by constructor <;> intro x <;> rfl) _ _ _ _ _

theorem Quiet.modifyStats {f} (hresident : (f s.stats).residentBytes = s.stats.residentBytes)
    (hreserved : (f s.stats).reservedBytes = s.stats.reservedBytes)
    (hstaging : (f s.stats).stagingUsedBytes = s.stats.stagingUsedBytes)
    (hactive : (f s.stats).activeLoads = s.stats.activeLoads) : Quiet s (s.modifyStats f) :=
  { Quiet.refl s with
    residentBytes := hresident, reservedBytes := hreserved, stagingUsedBytes := hstaging,
    activeLoads := hactive }

theorem Retention.modifyEntry (hr : Retention p s) (he : e ∉ s.byRecency) {f} (hf : RecencyOnly f) :
    Retention p (s.modifyEntry e f) where
  resident x hx := ((Quiet.modifyEntry e hf).resident x).mpr (hr.resident x hx)
  sorted := by
    refine hr.sorted.imp_of_mem fun {a b} ha hb h => ?_
    have hae : a ≠ e := fun h => he (h ▸ ha)
    have hbe : b ≠ e := fun h => he (h ▸ hb)
    simpa only [State.modifyEntry, if_neg hae, if_neg hbe] using h

theorem Retention.insert (hr : Retention p s) (hres : s.Resident p e) (he : e ∉ s.byRecency) :
    ∃ t, s.lruInsert p e = some t ∧ t = { s with byRecency := s.lruPlace p e s.byRecency } ∧
      Retention p t ∧ t.byRecency.Perm (e :: s.byRecency) := by
  have hfresh : ∀ x ∈ s.byRecency, s.lruEquiv p e x = false := by
    intro x hx
    rw [Bool.eq_false_iff]
    intro hequiv
    exact he (hres.eq_of_equiv (hr.resident x hx) hequiv ▸ hx)
  have hperm : (s.lruPlace p e s.byRecency).Perm (e :: s.byRecency) := List.perm_orderedInsert _ _ _
  refine ⟨_, lruInsert_of_fresh hfresh, rfl, ⟨?_, lruPlace_sorted hr.sorted hfresh⟩, hperm⟩
  intro x hx
  rcases List.mem_cons.mp (hperm.mem_iff.mp hx) with rfl | hx
  · exact hres
  · exact hr.resident x hx

theorem Retention.sublist (hr : Retention p s) {l} (hl : l.Sublist s.byRecency)
    (obs : OrdMap ExpertKey Nat) (c i q : Nat) :
    Retention p { s with
      byRecency := l, observations := obs, clock := c, insertionClock := i,
      frequencyClock := q } where
  resident x hx := hr.resident x (hl.subset hx)
  sorted := hr.sorted.sublist hl

/-! ## `touch` -/

theorem restamp_quiet (s : State) (e : EntryId) (f : Nat) (inserted : Bool) :
    Quiet s (s.restamp e f inserted) := by
  unfold restamp
  dsimp only
  refine (Quiet.reorder s.byRecency s.observations s.clock _ s.frequencyClock).trans
    (Quiet.modifyEntry e ?_)
  exact RecencyOnly.stamp Entry.lastUsed (fun _ => f) _

theorem restamp_retention (hr : Retention p s) (he : e ∉ s.byRecency) (f : Nat)
    (inserted : Bool) : Retention p (s.restamp e f inserted) := by
  unfold restamp
  dsimp only
  refine Retention.modifyEntry ?_ ?_ (RecencyOnly.stamp Entry.lastUsed (fun _ => f) _)
  · exact hr.sublist (List.Sublist.refl _) _ _ _ _
  · exact he

/-- What `touch` does to an entry of the cache. -/
structure Touched (p : Params) (s : State) (e : EntryId) (r : State × Option CacheError) :
    Prop where
  reorders : Reorders p s r.1
  /-- A normal return has reinserted the node. -/
  perm : r.2 = none → r.1.byRecency.Perm s.byRecency
  internal : ∀ error, r.2 = some error → error.isInternal = true
  /-- The two ways to throw. -/
  throws : r.2 ≠ none →
    e ∉ s.byRecency ∨ (p.config.frequencyRetention = true ∧ s.observations.find? (s.keyOf p e) = none)
  observations : r.1.observations = s.observations

theorem touch_spec (hr : Retention p s) (he : s.Resident p e) (inserted : Bool) :
    Touched p s e (s.touch p e inserted) := by
  unfold touch
  split
  next hfind =>
    refine ⟨⟨Quiet.refl s, hr, fun _ h => h, fun _ h => h, rfl⟩, by simp,
      by simp [CacheError.isInternal], fun _ => .inl fun hmem => ?_, rfl⟩
    rw [find_lruEquiv_of_mem hr hmem] at hfind; cases hfind
  next node hfind =>
  obtain ⟨rfl, hmem⟩ := find_lruEquiv_eq hr he hfind
  -- the node leaves the set and the entry is stamped
  generalize hs₁ : modifyEntry _ node _ = s₁
  have hgone : node ∉ s.byRecency.erase node := hr.nodup.not_mem_erase
  have hstamp : RecencyOnly fun x => { x with lastUsed := s.clock + 1 } :=
    RecencyOnly.stamp _ Entry.frequency Entry.insertionOrder
  have hq₁ : Quiet s s₁ := by
    rw [← hs₁]; exact (Quiet.reorder _ _ _ _ _).trans (Quiet.modifyEntry node hstamp)
  have hr₁ : Retention p s₁ := by
    rw [← hs₁]
    exact (hr.sublist List.erase_sublist _ _ _ _).modifyEntry hgone hstamp
  have horder : s₁.byRecency = s.byRecency.erase node := by rw [← hs₁]; rfl
  have hobs : s₁.observations = s.observations := by rw [← hs₁]; rfl
  have hcanon : s₁.canonical = s.canonical := by rw [← hs₁]; rfl
  have hsub : ∀ e ∈ s₁.byRecency, e ∈ s.byRecency := fun e h =>
    List.mem_of_mem_erase (horder ▸ h)
  dsimp only
  split
  next hmissing =>
    refine ⟨⟨hq₁, hr₁, hsub, fun k hk => hobs ▸ hk, hcanon⟩, by simp,
      by simp [CacheError.isInternal], fun _ => .inr ?_, hobs⟩
    split at hmissing
    next hfr => exact ⟨hfr, by rw [← hobs, ← hq₁.keyOf]; exact hmissing⟩
    · cases hmissing
  next f hfreq =>
  have hq₂ := hq₁.trans (restamp_quiet s₁ node f inserted)
  have hr₂ := restamp_retention hr₁ (horder ▸ hgone) f inserted
  obtain ⟨t, hins, ht, hrt, hperm⟩ := hr₂.insert ((hq₂.resident node).mpr he)
    (show node ∉ s₁.byRecency from horder ▸ hgone)
  rw [hins]
  replace hperm : t.byRecency.Perm (node :: s.byRecency.erase node) := horder ▸ hperm
  have hback : t.byRecency.Perm s.byRecency :=
    hperm.trans (List.perm_cons_erase hmem).symm
  have hobst : t.observations = s.observations := by
    rw [ht]; exact hobs
  refine ⟨⟨?_, hrt, fun e h => hback.mem_iff.mp h, fun k hk => hobst ▸ hk, ?_⟩,
    fun _ => hback, by simp, by simp, hobst⟩
  · rw [ht]; exact hq₂.trans (Quiet.reorder _ _ _ _ _)
  · rw [ht]; exact hcanon

/-! ## `observe` -/

/-- What reinserting extracted nodes does. -/
structure Reinserted (p : Params) (nodes : List EntryId) (s : State)
    (r : State × Option CacheError) : Prop where
  quiet : Quiet s r.1
  retention : Retention p r.1
  subset : ∀ e ∈ r.1.byRecency, e ∈ nodes ++ s.byRecency
  observations : r.1.observations = s.observations
  canonical : r.1.canonical = s.canonical
  perm : r.2 = none → r.1.byRecency.Perm (nodes ++ s.byRecency)
  internal : ∀ error, r.2 = some error → error.isInternal = true
  throws : r.2 ≠ none → ∃ e ∈ nodes, s.observations.find? (s.keyOf p e) = none

theorem reinsert_spec :
    ∀ (nodes : List EntryId) (s : State), Retention p s → (∀ e ∈ nodes, s.Resident p e) →
      nodes.Nodup → (∀ e ∈ nodes, e ∉ s.byRecency) →
      Reinserted p nodes s (State.reinsert p nodes s)
  | [], s, hr, _, _, _ =>
    ⟨Quiet.refl s, hr, fun _ h => h, rfl, rfl, fun _ => List.Perm.refl _,
      by simp [State.reinsert], by simp [State.reinsert]⟩
  | e :: rest, s, hr, hres, hnodup, hout => by
    obtain ⟨hfirst, hnodup⟩ := List.nodup_cons.mp hnodup
    have he := hout e List.mem_cons_self
    unfold State.reinsert
    split
    next hnone =>
      exact ⟨Quiet.refl s, hr, fun _ h => List.mem_append_right _ h, rfl, rfl, by simp,
        by simp [CacheError.isInternal], fun _ => ⟨e, List.mem_cons_self, hnone⟩⟩
    next f _ =>
    have hstamp : RecencyOnly fun x => { x with frequency := f } :=
      RecencyOnly.stamp Entry.lastUsed _ Entry.insertionOrder
    have hq₁ : Quiet s (s.modifyEntry e fun x => { x with frequency := f }) :=
      Quiet.modifyEntry e hstamp
    obtain ⟨u, hins, hu, hru, hperm⟩ := (hr.modifyEntry he hstamp).insert
      ((hq₁.resident e).mpr (hres e List.mem_cons_self)) he
    dsimp only
    rw [hins, Option.getD_some]
    have hq₂ : Quiet s u := by rw [hu]; exact hq₁.trans (Quiet.reorder _ _ _ _ _)
    have hobs : u.observations = s.observations := by rw [hu]; rfl
    have hcanon : u.canonical = s.canonical := by rw [hu]; rfl
    replace hperm : u.byRecency.Perm (e :: s.byRecency) := hperm
    have ih := reinsert_spec rest u hru
      (fun x hx => (hq₂.resident x).mpr (hres x (List.mem_cons_of_mem _ hx))) hnodup
      (fun x hx hmem => by
        rcases List.mem_cons.mp (hperm.mem_iff.mp hmem) with rfl | hmem
        · exact hfirst hx
        · exact hout x (List.mem_cons_of_mem _ hx) hmem)
    have hall : (rest ++ u.byRecency).Perm (e :: rest ++ s.byRecency) :=
      (hperm.append_left rest).trans List.perm_middle
    refine ⟨hq₂.trans ih.quiet, ih.retention, fun x hx => hall.mem_iff.mp (ih.subset x hx),
      ih.observations.trans hobs, ih.canonical.trans hcanon, fun h => (ih.perm h).trans hall,
      ih.internal, fun h => ?_⟩
    obtain ⟨x, hx, hmissing⟩ := ih.throws h
    exact ⟨x, List.mem_cons_of_mem _ hx, by rw [← hobs, ← hq₂.keyOf]; exact hmissing⟩

/-- The next observation is one of those that age every frequency. -/
def State.Ages (p : Params) (s : State) : Prop :=
  p.config.frequencyRetention = true ∧ (s.frequencyClock + 1) % 16384 = 0

structure Observed (p : Params) (s : State) (key : ExpertKey) (r : State × Option CacheError) :
    Prop where
  reorders : Reorders p s r.1
  perm : r.2 = none → r.1.byRecency.Perm s.byRecency
  internal : ∀ error, r.2 = some error → error.isInternal = true
  throws : r.2 ≠ none → p.config.frequencyRetention = true ∧
    ∃ e ∈ s.byRecency, s.observations.find? (s.keyOf p e) = none
  counted : r.2 = none → p.config.frequencyRetention = true →
    (r.1.observations.find? key).isSome
  steady : ¬ s.Ages p → r.1.byRecency = s.byRecency

theorem count_reorders (hr : Retention p s) (key : ExpertKey) : Reorders p s (s.count key) where
  quiet := Quiet.reorder _ _ _ _ _
  retention := hr.sublist (List.Sublist.refl _) _ _ _ _
  subset _ h := h
  observed k hk := by
    simp only [count, OrdMap.find?_insert]
    split
    · rfl
    · exact hk
  canonical := rfl

theorem count_counted (s : State) (key : ExpertKey) :
    ((s.count key).observations.find? key).isSome := by
  simp [count]

theorem age_spec (hr : Retention p s) :
    Reorders p s (s.age p).1 ∧ ((s.age p).2 = none → (s.age p).1.byRecency.Perm s.byRecency) ∧
      (∀ error, (s.age p).2 = some error → error.isInternal = true) ∧
      ((s.age p).2 ≠ none → ∃ e ∈ s.byRecency, s.observations.find? (s.keyOf p e) = none) := by
  have hspec := reinsert_spec s.byRecency
    { s with byRecency := [], observations := s.observations.mapValues (· / 2) }
    (hr.sublist (List.nil_sublist _) _ _ _ _) hr.resident hr.nodup (by simp)
  refine ⟨⟨(Quiet.reorder _ _ _ _ _).trans hspec.quiet, hspec.retention, ?_, ?_,
    hspec.canonical⟩, ?_, hspec.internal, ?_⟩
  · intro e he
    simpa using hspec.subset e he
  · intro k hk
    rw [age, hspec.observations, OrdMap.find?_mapValues]
    simpa using hk
  · intro h
    have hperm := hspec.perm h
    rwa [List.append_nil] at hperm
  · intro h
    obtain ⟨e, he, hmissing⟩ := hspec.throws h
    rw [OrdMap.find?_mapValues] at hmissing
    exact ⟨e, he, Option.map_eq_none_iff.mp hmissing⟩

theorem observe_spec (hr : Retention p s) (key : ExpertKey) :
    Observed p s key (s.observe p key) := by
  unfold observe
  split
  next hfr =>
    have htick : Reorders p s { s with frequencyClock := s.frequencyClock + 1 } :=
      ⟨Quiet.reorder _ _ _ _ _, hr.sublist (List.Sublist.refl _) _ _ _ _, fun _ h => h,
        fun _ h => h, rfl⟩
    dsimp only
    split
    next hclock =>
      have hages : s.Ages p := ⟨hfr, hclock⟩
      obtain ⟨hreord, hperm, hinternal, hthrows⟩ := age_spec htick.retention
      split
      next t error hage =>
        rw [hage] at hreord hinternal hthrows
        exact ⟨htick.trans hreord, by simp, hinternal, fun h => ⟨hfr, hthrows h⟩, by simp,
          fun h => absurd hages h⟩
      next t hage =>
      rw [hage] at hreord hperm
      exact ⟨(htick.trans hreord).trans (count_reorders hreord.retention key),
        fun _ => hperm rfl, by simp, by simp, fun _ _ => count_counted t key,
        fun h => absurd hages h⟩
    · exact ⟨htick.trans (count_reorders htick.retention key), fun _ => List.Perm.refl _, by simp,
        by simp, fun _ _ => count_counted _ key, fun _ => rfl⟩
  next hfr =>
    exact ⟨⟨Quiet.refl s, hr, fun _ h => h, fun _ h => h, rfl⟩, fun _ => List.Perm.refl _,
      by simp, by simp, fun _ h => absurd h hfr, fun _ => rfl⟩

end ExpertStreaming.RamCache
