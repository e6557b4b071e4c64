import ExpertStreaming.RamCache.Publish

/-! # The RAM expert cache: publication and the copy

The section between the reads and the copy, and the copy itself.
-/
namespace ExpertStreaming.RamCache
open Lib State OrdMap

variable {p : Params} {s u : State} {t : Tid} {d : DescId} {l : LoadId}

/-- The state in which the copy of `l` starts. -/
structure Published (p : Params) (s u : State) (t : Tid) (d : DescId) (l : LoadId) : Prop where
  resident : ∀ e, u.Resident p e ↔ (s.Resident p e ∧ e ∉ (s.loads l).victims) ∨ e = l
  indexed : Indexed p u
  order : u.byRecency.Perm (l :: s.byRecency.filter (· ∉ (s.loads l).victims))
  heap : ∀ e, u.heap e =
    if e = l then { s.heap e with
      arenaOffset := (s.loads l).arenaOffset, data := some (s.loads l).arenaOffset,
      ready := false }
    else s.heap e
  loads : ∀ m, u.loads m = if m = l then { s.loads m with state := .copying } else s.loads m
  pendingMap : u.pending = s.pending
  canonical : u.canonical = s.canonical
  observations : u.observations = s.observations
  next : u.next = s.next
  staging : u.staging = s.staging
  arena : u.arena = s.arena
  leases : u.leases = s.leases
  nextLease : u.nextLease = s.nextLease
  calls : u.calls = s.calls.insert t (.copying d l 0)
  reservedBytes : u.stats.reservedBytes = s.stats.reservedBytes
  stagingUsedBytes : u.stats.stagingUsedBytes = s.stats.stagingUsedBytes
  activeLoads : u.stats.activeLoads = s.stats.activeLoads

theorem Inv.claim_offset_free (hi : Inv p s) (hp : s.Pending p l) {e} (he : s.Resident p e)
    (hne : e ≠ l) (hv : e ∉ (s.loads l).victims) :
    (s.heap e).arenaOffset ≠ (s.loads l).arenaOffset := by
  intro ho
  rcases hi.layout.claim_clear l e hp he hne with hmark | hap
  · exact hv (hi.layout.reserved e l he hmark).2.2
  · have h₁ := s.bytesOf_pos p e
    have h₂ := s.bytesOf_pos p (s.loads l).result
    simp only [Region.Apart, Region.stop, claim, region, ho] at hap
    omega

/-- A loaded entry that has its place but is not indexed. -/
structure Installable (p : Params) (s : State) (l : LoadId) : Prop where
  inv : Inv p s
  pending : s.Pending p l
  loading : (s.loads l).state = .loading
  placed : (s.heap l).arenaOffset = (s.loads l).arenaOffset
  unready : (s.heap l).ready = false
  absent : s.entries.find? (s.keyOf p l) = none

/-- The indexes with the victims gone and the loaded entry in. -/
def State.installed (p : Params) (s : State) (l : LoadId) : State :=
  let r := s.retireVictims p (s.loads l).victims
  { r with
    entries := r.entries.insert (s.keyOf p l) l
    byOffset := r.byOffset.insert (s.loads l).arenaOffset l }

namespace Installable
variable (h : Installable p s l)
include h

theorem retired : Retired p s (s.retireVictims p (s.loads l).victims) (s.loads l).victims :=
  retireVictims_spec _ _ h.inv.indexed
    (fun v hv => ⟨(h.inv.layout.victim l v h.pending h.loading hv).1,
      (h.inv.layout.victim l v h.pending h.loading hv).2.1⟩)
    (h.inv.layout.victims_nodup l h.pending)

theorem not_resident : ¬ s.Resident p l := by
  intro hr
  rw [State.Resident, h.absent] at hr
  cases hr

theorem victims_keys : ∀ v ∈ (s.loads l).victims, s.keyOf p v ≠ s.keyOf p l := by
  intro v hv hk
  have hvr := (h.inv.layout.victim l v h.pending h.loading hv).1
  rw [State.Resident, hk, h.absent] at hvr
  cases hvr

theorem offset_free :
    (s.retireVictims p (s.loads l).victims).byOffset.find? (s.loads l).arenaOffset = none := by
  cases hf : (s.retireVictims p (s.loads l).victims).byOffset.find? (s.loads l).arenaOffset with
  | none => rfl
  | some e =>
    obtain ⟨he, ho⟩ := (h.retired.indexed.by_offset _ e).mp hf
    obtain ⟨her, hv⟩ := (h.retired.resident e).mp he
    have hne : e ≠ l := by rintro rfl; exact h.not_resident her
    have hheap : (s.retireVictims p (s.loads l).victims).heap e = s.heap e := by
      rw [h.retired.rest]
    rw [hheap] at ho
    exact absurd ho (h.inv.claim_offset_free h.pending her hne hv)

theorem heap_eq : (s.installed p l).heap = s.heap := by
  show (s.retireVictims p (s.loads l).victims).heap = s.heap
  rw [h.retired.rest]

theorem resident (e : EntryId) : (s.installed p l).Resident p e ↔
    (s.Resident p e ∧ e ∉ (s.loads l).victims) ∨ e = l := by
  have hkey : ∀ e, (s.retireVictims p (s.loads l).victims).keyOf p e = s.keyOf p e := by
    intro e; rw [h.retired.rest]; rfl
  have hkey' : (s.installed p l).keyOf p e = s.keyOf p e := by
    rw [keyOf, h.heap_eq]; rfl
  rw [State.Resident, hkey', ← h.retired.resident e, State.Resident, hkey]
  show (insert _ _ _).find? _ = _ ↔ _
  rw [find?_insert]
  split
  next heq =>
    have hnone : (s.retireVictims p (s.loads l).victims).entries.find? (s.keyOf p e) ≠ some e := by
      intro hf
      have hr : (s.retireVictims p (s.loads l).victims).Resident p e := by
        rw [State.Resident, hkey]; exact hf
      have := ((h.retired.resident e).mp hr).1
      rw [State.Resident, heq, h.absent] at this
      cases this
    rw [Option.some.injEq]
    exact ⟨fun he => .inr he.symm, fun he => (he.resolve_left hnone).symm⟩
  next hne =>
  refine ⟨.inl, fun he => he.resolve_right ?_⟩
  rintro rfl
  exact hne rfl

theorem indexed_retention : Retention p (s.installed p l) where
  resident e he := by
    rw [show (s.installed p l).byRecency = _ from h.retired.byRecency, List.mem_filter] at he
    exact (h.resident e).mpr (.inl ⟨h.inv.retention.resident e he.1, by simpa using he.2⟩)
  sorted := by
    rw [h.heap_eq, show (s.installed p l).byRecency = _ from h.retired.byRecency]
    exact h.inv.retention.sorted.filter _

theorem indexed : Indexed p (s.installed p l) where
  entry_key k e hk := by
    rw [keyOf, h.heap_eq]
    rw [installed, find?_insert] at hk
    split at hk
    next heq => rw [← Option.some.inj hk, heq]; rfl
    next =>
    have hkey := h.retired.indexed.entry_key k e hk
    rw [h.retired.rest] at hkey
    exact hkey
  by_offset o e := by
    rw [h.resident, h.heap_eq]
    show (insert _ _ _).find? o = some e ↔ _
    rw [find?_insert]
    have hheap : (s.retireVictims p (s.loads l).victims).heap = s.heap := by rw [h.retired.rest]
    have hold := h.retired.indexed.by_offset o e
    rw [h.retired.resident, hheap] at hold
    split
    next heq =>
      rw [Option.some.injEq]
      constructor
      · intro he; exact ⟨.inr he.symm, by rw [← he, heq]; exact h.placed⟩
      · rintro ⟨hr, ho⟩
        rcases hr with ⟨hr, hv⟩ | hr
        · have hne : e ≠ l := by rintro rfl; exact h.not_resident hr
          exact absurd (ho.trans heq) (h.inv.claim_offset_free h.pending hr hne hv)
        · exact hr.symm
    next hne =>
    rw [hold]
    refine and_congr_left fun ho => ⟨.inl, fun hr => hr.resolve_right ?_⟩
    rintro rfl
    exact hne (ho.symm.trans h.placed)
  retention := h.indexed_retention
  resident := by
    have habsent : (s.retireVictims p (s.loads l).victims).entries.find? (s.keyOf p l) = none := by
      cases hf : (s.retireVictims p (s.loads l).victims).entries.find? (s.keyOf p l) with
      | none => rfl
      | some e =>
        have hkey := h.retired.indexed.entry_key _ _ hf
        have hr : (s.retireVictims p (s.loads l).victims).Resident p e := by
          rw [State.Resident, hkey]; exact hf
        have hs := ((h.retired.resident e).mp hr).1
        rw [h.retired.rest] at hkey
        rw [State.Resident, show s.keyOf p e = s.keyOf p l from hkey, h.absent] at hs
        cases hs
    have hsum := h.retired.indexed.resident
    have hheap : (s.retireVictims p (s.loads l).victims).heap = s.heap := by rw [h.retired.rest]
    show (s.retireVictims p (s.loads l).victims).stats.residentBytes = sumBy _ (insert _ _ _)
    rw [sumBy_insert _ _ habsent, h.heap_eq, h.unready, hsum, hheap]
    simp only [Bool.false_eq_true, if_false, Nat.zero_add]
    apply sumBy_congr
    intro k e _
    simp only [bytesOf, h.heap_eq, hheap]

theorem lruInsert : ∃ w, (s.installed p l).lruInsert p l = some w ∧
    w = { s.installed p l with
      byRecency := (s.installed p l).lruPlace p l (s.installed p l).byRecency } ∧
    Indexed p w ∧ w.byRecency.Perm (l :: s.byRecency.filter (· ∉ (s.loads l).victims)) := by
  have horder : (s.installed p l).byRecency = _ := h.retired.byRecency
  have hout : l ∉ (s.installed p l).byRecency := by
    rw [horder, List.mem_filter]
    intro hmem
    exact h.not_resident (h.inv.retention.resident l hmem.1)
  obtain ⟨w, hins, hw, hr, hperm⟩ := h.indexed.retention.insert ((h.resident l).mpr (.inr rfl)) hout
  rw [horder] at hperm
  refine ⟨w, hins, hw, ?_, hperm⟩
  have hx := h.indexed
  subst hw
  exact ⟨hx.entry_key, hx.by_offset, hr, hx.resident⟩

theorem install_eq (hdesc : (s.heap l).desc = d) (t : Tid) :
    ∃ w, (s.installed p l).lruInsert p l = some w ∧
      s.install p t d l =
        ((w.modifyLoad l fun x => { x with state := .copying }).setCall t (.copying d l 0),
          .running) := by
  obtain ⟨w, hins, -⟩ := h.lruInsert
  refine ⟨w, hins, ?_⟩
  have hkey : (p.descriptor d).key = s.keyOf p l := by rw [keyOf, hdesc]
  have hcontains : s.entries.contains (s.keyOf p l) = false := by
    rw [contains, h.absent]; rfl
  have hplaced : ((s.retireVictims p (s.loads l).victims).heap l).arenaOffset =
      (s.loads l).arenaOffset := by rw [h.retired.rest]; exact h.placed
  have hoffset : (s.retireVictims p (s.loads l).victims).byOffset.contains
      (s.loads l).arenaOffset = false := by
    rw [contains, h.offset_free]; rfl
  unfold install
  dsimp only
  rw [hkey, hcontains, h.inv.layout.result l, emplace, hcontains]
  simp only [Bool.false_eq_true, if_false]
  -- indexing the new key before the victims go is the same as after
  rw [retireVictims_insert _ l _ s h.victims_keys]
  dsimp only
  rw [hplaced, hoffset, emplace, hoffset]
  simp only [Bool.false_eq_true, if_false]
  rw [installed] at hins
  rw [hins]

end Installable

theorem Inv.installable (hi : Inv p s) (hp : s.Pending p l) (hs : (s.loads l).state = .loading)
    (habsent : s.entries.find? (s.keyOf p l) = none) : Installable p (s.placeResult l) l := by
  have hnot : ¬ s.Resident p l := by
    intro hr
    rw [State.Resident, habsent] at hr
    cases hr
  have hheap := placeResult_heap (hi.layout.result l) l
  rw [if_pos rfl] at hheap
  refine ⟨hi.placeResult hnot, (placeResult_pending l).mpr hp, hs, ?_, ?_, ?_⟩
  · rw [hheap]; rfl
  · rw [hheap]
  · rw [placeResult_keyOf]; exact habsent

theorem Installable.published (h : Installable p s l) (hdesc : (s.heap l).desc = d) (t : Tid) :
    ∃ u, s.install p t d l = (u, .running) ∧
      (∀ e, u.Resident p e ↔ (s.Resident p e ∧ e ∉ (s.loads l).victims) ∨ e = l) ∧
      Indexed p u ∧ u.byRecency.Perm (l :: s.byRecency.filter (· ∉ (s.loads l).victims)) ∧
      u.stats.reservedBytes = s.stats.reservedBytes ∧
      u.stats.stagingUsedBytes = s.stats.stagingUsedBytes ∧
      u.stats.activeLoads = s.stats.activeLoads ∧
      u = { s with
        entries := u.entries, byOffset := u.byOffset, byRecency := u.byRecency, stats := u.stats
        loads := fun m => if m = l then { s.loads m with state := .copying } else s.loads m
        calls := s.calls.insert t (.copying d l 0) } := by
  obtain ⟨w, hins, hw, hx, hperm⟩ := h.lruInsert
  obtain ⟨w', hins', heq⟩ := h.install_eq hdesc t
  rw [hins] at hins'
  cases hins'
  refine ⟨_, heq, ?_, ⟨hx.entry_key, hx.by_offset, ⟨hx.retention.resident, hx.retention.sorted⟩,
    hx.resident⟩, hperm, ?_, ?_, ?_, ?_⟩
  · intro e
    rw [← h.resident e, hw]; rfl
  · rw [hw]; exact h.retired.reservedBytes
  · rw [hw]; exact h.retired.stagingUsedBytes
  · rw [hw]; exact h.retired.activeLoads
  · rw [hw, installed, h.retired.rest]; rfl

theorem publish_spec (hi : Inv p s) (hp : s.Pending p l) (hs : (s.loads l).state = .loading)
    (hdesc : (s.heap l).desc = d) (t : Tid) :
    (s.entries.contains (p.descriptor d).key = true ∧
        s.publish p t d l = (s.placeResult l).failLoad p t l .duplicatePublication) ∨
      (s.entries.contains (p.descriptor d).key = false ∧
        ∃ u, s.publish p t d l = (u, .running) ∧ Published p s u t d l) := by
  by_cases hdup : s.entries.contains (p.descriptor d).key = true
  · refine .inl ⟨hdup, ?_⟩
    rw [publish, install]
    exact if_pos hdup
  · refine .inr ⟨Bool.eq_false_iff.mpr hdup, ?_⟩
    have habsent : s.entries.find? (s.keyOf p l) = none := by
      rw [keyOf, hdesc]; simpa [contains] using hdup
    obtain ⟨u, heq, hres, hx, hperm, hr₁, hr₂, hr₃, hrest⟩ :=
      (hi.installable hp hs habsent).published ((placeResult_desc s l l).trans hdesc) t
    refine ⟨u, heq, fun e => ?_, hx, hperm, fun e => ?_, fun m => ?_, ?_, ?_, ?_, ?_, ?_, ?_, ?_, ?_,
      ?_, hr₁, hr₂, hr₃⟩
    · rw [hres e, placeResult_resident]; rfl
    · rw [hrest]; exact placeResult_heap (hi.layout.result l) e
    all_goals rw [hrest]; rfl

namespace Published
variable (h : Published p s u t d l)
include h

theorem desc (e : EntryId) : (u.heap e).desc = (s.heap e).desc := by
  rw [h.heap]; split <;> rfl

theorem keyOf (e : EntryId) : u.keyOf p e = s.keyOf p e := by rw [State.keyOf, h.desc]; rfl

theorem bytesOf (e : EntryId) : u.bytesOf p e = s.bytesOf p e := by
  rw [State.bytesOf, h.desc]; rfl

theorem heap_of_ne {e} (he : e ≠ l) : u.heap e = s.heap e := by rw [h.heap, if_neg he]

theorem region_of_ne {e} (he : e ≠ l) : u.region p e = s.region p e := by
  rw [region, h.heap_of_ne he, h.bytesOf]; rfl

theorem pins (e : EntryId) : (u.heap e).pins = (s.heap e).pins := by
  rw [h.heap]; split <;> rfl

theorem reservedBy (e : EntryId) : (u.heap e).reservedBy = (s.heap e).reservedBy := by
  rw [h.heap]; split <;> rfl

theorem load_of_ne {m} (hm : m ≠ l) : u.loads m = s.loads m := by
  rw [h.loads, if_neg hm]

theorem load_self : u.loads l = { s.loads l with state := .copying } := by rw [h.loads, if_pos rfl]

variable (m : LoadId)

theorem result : (u.loads m).result = (s.loads m).result := by
  rw [h.loads]; split <;> rfl

theorem claimOffset : (u.loads m).arenaOffset = (s.loads m).arenaOffset := by
  rw [h.loads]; split <;> rfl

theorem stagingOffset : (u.loads m).stagingOffset = (s.loads m).stagingOffset := by
  rw [h.loads]; split <;> rfl

theorem victims : (u.loads m).victims = (s.loads m).victims := by
  rw [h.loads]; split <;> rfl

theorem error : (u.loads m).error = (s.loads m).error := by
  rw [h.loads]; split <;> rfl

theorem useCount : (u.loads m).useCount = (s.loads m).useCount := by
  rw [h.loads]; split <;> rfl

theorem claim : u.claim p m = s.claim p m := by
  rw [State.claim, h.claimOffset, h.result, h.bytesOf]; rfl

theorem stage : u.stage p m = s.stage p m := by
  rw [State.stage, h.stagingOffset, h.result, h.bytesOf]; rfl

theorem pending : u.Pending p m ↔ s.Pending p m := by
  rw [State.Pending, h.pendingMap, h.result, h.keyOf]; rfl

theorem region_self (hl : Layout p s) : u.region p l = s.claim p l := by
  rw [State.region, h.heap, if_pos rfl, h.bytesOf, State.claim, hl.result]

theorem resident_cases {e} (he : u.Resident p e) :
    e = l ∨ e ≠ l ∧ s.Resident p e ∧ e ∉ (s.loads l).victims := by
  by_cases hel : e = l
  · exact .inl hel
  · exact .inr ⟨hel, ((h.resident e).mp he).resolve_right hel⟩

theorem layout (hl : Layout p s) (hp : s.Pending p l) (hs : (s.loads l).state = .loading) :
    Layout p u := by
  obtain ⟨hnot, hnone⟩ := hl.loading hp hs
  -- what is not a victim of this load is clear of its claim
  have hclear : ∀ e, e ≠ l → s.Resident p e → e ∉ (s.loads l).victims →
      (s.claim p l).Apart (s.region p e) := by
    intro e hne he hv
    rcases hl.claim_clear l e hp he hne with hmark | hap
    · exact absurd (hl.reserved e l he hmark).2.2 hv
    · exact hap
  constructor
  case result => intro m; rw [h.result]; exact hl.result m
  case entry_key => exact h.indexed.entry_key
  case by_offset => exact h.indexed.by_offset
  case entry_fresh =>
    intro e he
    rw [h.next]
    rcases h.resident_cases he with rfl | ⟨_, hr, _⟩
    · exact hl.load_fresh e hp
    · exact hl.entry_fresh e hr
  case entry_aligned =>
    intro e he
    rcases h.resident_cases he with rfl | ⟨hne, hr, _⟩
    · rw [h.heap, if_pos rfl]; exact hl.claim_aligned e hp
    · rw [h.heap_of_ne hne]; exact hl.entry_aligned e hr
  case entry_in =>
    intro e he
    rcases h.resident_cases he with rfl | ⟨hne, hr, _⟩
    · rw [h.region_self hl]; exact hl.claim_in e hp
    · rw [h.region_of_ne hne]; exact hl.entry_in e hr
  case entry_data =>
    intro e he
    rcases h.resident_cases he with rfl | ⟨hne, hr, _⟩
    · rw [h.heap, if_pos rfl]
    · rw [h.heap_of_ne hne]; exact hl.entry_data e hr
  case entry_apart =>
    intro e f he hf hef
    rcases h.resident_cases he with rfl | ⟨hne, hr, hv⟩
    · rcases h.resident_cases hf with rfl | ⟨hnf, hrf, hvf⟩
      · exact absurd rfl hef
      · rw [h.region_self hl, h.region_of_ne hnf]; exact hclear f hnf hrf hvf
    · rcases h.resident_cases hf with rfl | ⟨hnf, hrf, _⟩
      · rw [h.region_self hl, h.region_of_ne hne]; exact (hclear e hne hr hv).symm
      · rw [h.region_of_ne hne, h.region_of_ne hnf]; exact hl.entry_apart e f hr hrf hef
  case load_key => intro k m; rw [h.pendingMap, h.keyOf]; exact hl.load_key k m
  case load_fresh => intro m; rw [h.pending, h.next]; exact hl.load_fresh m
  case load_phase =>
    intro m hm
    rw [h.pending] at hm
    by_cases hml : m = l
    · subst hml
      refine .inr ⟨by rw [h.load_self], (h.resident m).mpr (.inr rfl), ?_, ?_⟩
      · rw [h.heap, if_pos rfl]
      · rw [h.heap, if_pos rfl, h.claimOffset]
    · rw [h.load_of_ne hml, h.heap_of_ne hml]
      rcases hl.load_phase m hm with ⟨hms, hmr, hmn⟩ | ⟨hms, hmr, hready, hoff⟩
      · refine .inl ⟨hms, fun hr => ?_, hmn⟩
        rcases h.resident_cases hr with he | ⟨_, hr', _⟩
        · exact hml he
        · exact hmr hr'
      · refine .inr ⟨hms, (h.resident m).mpr (.inl ⟨hmr, fun hv => ?_⟩), hready, hoff⟩
        rw [(hl.victim l m hp hs hv).2.1] at hready
        cases hready
  case load_error => intro m; rw [h.pending, h.error]; exact hl.load_error m
  case claim_aligned => intro m; rw [h.pending, h.claimOffset]; exact hl.claim_aligned m
  case claim_in => intro m; rw [h.pending, h.claim]; exact hl.claim_in m
  case stage_in => intro m; rw [h.pending, h.stage]; exact hl.stage_in m
  case claim_apart =>
    intro m n; rw [h.pending, h.pending, h.claim, h.claim]; exact hl.claim_apart m n
  case stage_apart =>
    intro m n; rw [h.pending, h.pending, h.stage, h.stage]; exact hl.stage_apart m n
  case claim_clear =>
    intro m e hm he hne
    rw [h.pending] at hm
    rw [h.reservedBy, h.claim]
    rcases h.resident_cases he with rfl | ⟨hel, hr, _⟩
    · rw [h.region_self hl]
      exact .inr (hl.claim_apart m e hm hp hne.symm)
    · rw [h.region_of_ne hel]; exact hl.claim_clear m e hm hr hne
  case victim =>
    intro m v hm hms hv
    rw [h.pending] at hm
    rw [h.victims] at hv
    have hml : m ≠ l := by rintro rfl; rw [h.load_self] at hms; cases hms
    rw [h.load_of_ne hml] at hms
    obtain ⟨hr, hready, hvm⟩ := hl.victim m v hm hms hv
    have hvl : v ≠ l := by rintro rfl; exact hnot hr
    rw [h.heap_of_ne hvl]
    refine ⟨(h.resident v).mpr (.inl ⟨hr, fun hv' => ?_⟩), hready, hvm⟩
    rw [(hl.victim l v hp hs hv').2.2] at hvm
    exact hml (Option.some.inj hvm).symm
  case victims_nodup => intro m; rw [h.pending, h.victims]; exact hl.victims_nodup m
  case reserved =>
    intro e m he hem
    rw [h.reservedBy] at hem
    rw [h.pending, h.victims]
    rcases h.resident_cases he with rfl | ⟨_, hr, hv⟩
    · rw [hnone] at hem; cases hem
    · obtain ⟨hm, hms, hmem⟩ := hl.reserved e m hr hem
      have hml : m ≠ l := by rintro rfl; exact hv hmem
      exact ⟨hm, by rw [h.load_of_ne hml]; exact hms, hmem⟩

theorem stay (hfree : ∀ v ∈ (s.loads l).victims, (s.heap v).pins = 0) {e} (he : s.Resident p e)
    (hpin : (s.heap e).pins ≠ 0) : u.Resident p e :=
  (h.resident e).mpr (.inl ⟨he, fun hv => hpin (hfree e hv)⟩)

theorem pinsOk (hi : Inv p s) (hp : s.Pending p l) (hs : (s.loads l).state = .loading)
    (hfree : ∀ v ∈ (s.loads l).victims, (s.heap v).pins = 0) : Pins p u := by
  have hnot : ∀ e, s.Resident p e → e ≠ l := by
    rintro e he rfl
    exact (hi.layout.loading hp hs).1 he
  have hdone : ∀ m, u.Completing m → s.Completing m := by
    intro m hm
    have hml : m ≠ l := by rintro rfl; rw [State.Completing, h.load_self] at hm; cases hm.1
    rw [State.Completing, h.load_of_ne hml] at hm
    exact hm
  constructor
  case count =>
    intro e
    rw [h.pins, hi.pins.count e, leaseCount, leaseCount, h.leases]
    congr 1
    by_cases hel : e = l
    · subst hel
      simp [completionPin, hs, h.load_self]
    · simp only [completionPin, h.load_of_ne hel]
  case lease =>
    intro i x hx
    rw [h.leases] at hx
    obtain ⟨hr, hready, hd⟩ := hi.pins.lease i x hx
    rw [h.heap_of_ne (hnot _ hr)]
    exact ⟨h.stay hfree hr (hi.pins.eq_zero_of_lease hx), hready, hd⟩
  case lease_fresh => intro i x; rw [h.leases, h.nextLease]; exact hi.pins.lease_fresh i x
  case completing =>
    intro m hm
    obtain ⟨hr, hready⟩ := hi.pins.completing m (hdone m hm)
    rw [h.heap_of_ne (hnot m hr)]
    exact ⟨h.stay hfree hr (hi.pins.ne_zero_of_completing (hdone m hm)), hready⟩

theorem callsOk (hi : Inv p s)
    (hc : s.calls.find? t = some (.reading d l (p.descriptor d).extents.length)) : Calls p u := by
  obtain ⟨hp, hs, hd, _, hread⟩ := hi.calls.ok t _ hc
  refine hi.calls.update hc h.calls rfl (fun m => (h.pending m).mp) ?_ ?_
  · refine ⟨(h.pending l).mpr hp, by rw [h.load_self], (h.desc l).trans hd, Nat.zero_le _, ?_, ?_⟩
    · rw [bytesBefore_all, List.take_length] at hread
      rw [h.staging, h.stagingOffset]; exact hread
    · rw [List.take_zero]; rfl
  · intro i c hne hci
    have hok := hi.calls.ok i c hci
    by_cases hcl : c.load? = some l
    · -- only a coalesced caller can refer to a load someone else owns
      cases c with
      | admission d' => cases hcl
      | coalesced d' m =>
        cases hcl
        exact ⟨(h.desc l).trans hok.1, by rw [h.next]; exact hok.2.1, .inl ((h.pending l).mpr hp)⟩
      | reading d' m done => exact absurd (hi.calls.owner i t _ _ l hci hc hcl rfl) hne
      | readFailed d' m done e => exact absurd (hi.calls.owner i t _ _ l hci hc hcl rfl) hne
      | copying d' m done => exact absurd (hi.calls.owner i t _ _ l hci hc hcl rfl) hne
    · refine hok.congr (fun m hm => ?_) h.next.ge h.staging h.arena
      have hml : m ≠ l := by rintro rfl; exact hcl hm
      exact ⟨h.desc m, h.pending m, by rw [h.load_of_ne hml], h.error m, h.stagingOffset m,
        h.claimOffset m⟩

/-- **Starting the copy keeps the invariant when no victim is leased.** -/
theorem inv (hi : Inv p s)
    (hc : s.calls.find? t = some (.reading d l (p.descriptor d).extents.length))
    (hfree : ∀ v ∈ (s.loads l).victims, (s.heap v).pins = 0) : Inv p u := by
  obtain ⟨hp, hs, hd, -⟩ := hi.calls.ok t _ hc
  have hcanon : ∀ m, u.canonical.find? (u.keyOf p m) = s.canonical.find? (s.keyOf p m) := by
    intro m; rw [h.canonical, h.keyOf]
  refine ⟨h.layout hi.layout hp hs, ⟨?_, ?_, ?_⟩, h.indexed.retention,
    ⟨h.indexed.resident, ?_, ?_, ?_⟩, h.pinsOk hi hp hs hfree, ?_, h.callsOk hi hc, ?_⟩
  · intro e he
    rw [hcanon, h.desc]
    rcases h.resident_cases he with rfl | ⟨_, hr, _⟩
    · exact hi.canonical.load e hp
    · exact hi.canonical.entry e hr
  · intro m hm
    rw [hcanon, h.desc]
    exact hi.canonical.load m ((h.pending m).mp hm)
  · exact hi.canonical.update hc h.calls rfl h.canonical
  · simp only [h.reservedBytes, h.pendingMap, h.bytesOf]; exact hi.counters.reserved
  · simp only [h.stagingUsedBytes, h.pendingMap, h.bytesOf]; exact hi.counters.staging
  · simp only [h.activeLoads, h.pendingMap]; exact hi.counters.active
  · intro m
    have hm := @holders_update s t _ (.copying d l 0) hc rfl m
    rw [h.useCount, holders, h.calls, h.pendingMap, hi.uses m, ← hm]; rfl
  · intro e he hready
    rcases h.resident_cases he with rfl | ⟨hne, hr, _⟩
    · rw [h.heap, if_pos rfl] at hready; cases hready
    · rw [h.heap_of_ne hne] at hready ⊢
      rw [h.bytesOf, h.arena]
      exact hi.contents e hr hready

end Published

/-! ## The copy -/

theorem Layout.read_other (hl : Layout p s) {e f} (he : s.Resident p e) (hf : s.Resident p f)
    (hne : f ≠ e) {i} (hi : i < s.bytesOf p e) (b : UInt8) {n} (hn : n ≤ s.bytesOf p f) :
    (s.arena.write ((s.heap e).arenaOffset + i) [b]).read (s.heap f).arenaOffset n =
      s.arena.read (s.heap f).arenaOffset n := by
  apply Memory.read_write_apart
  have hap := hl.entry_apart f e hf he hne
  simp only [Region.Apart, Region.stop, region, List.length_singleton] at hap ⊢
  omega

theorem copyByte_progress (s : State) (t : Tid) (d : DescId) (l : LoadId) (done : Nat) :
    Progress s (s.copyByte t d l done) t (.copying d l (done + 1)) := by
  constructor
  case toSameLayout => constructor <;> intros <;> rfl
  all_goals intros; rfl

/-- **Each byte of the copy keeps the invariant.** -/
theorem Inv.copyByte (hi : Inv p s) {done} (hc : s.calls.find? t = some (.copying d l done))
    (hlt : done < (p.descriptor d).bytes) : Inv p (s.copyByte t d l done) := by
  obtain ⟨hp, hs, hd, _, hstaged, hcopied⟩ := hi.calls.ok t _ hc
  have hbytes : s.bytesOf p l = (p.descriptor d).bytes := by rw [bytesOf, hd]
  obtain ⟨hr, hready, hoff⟩ := hi.layout.copying hp hs
  have h := copyByte_progress s t d l done
  have hother : ∀ f, s.Resident p f → f ≠ l → ∀ n, n ≤ s.bytesOf p f →
      (s.copyByte t d l done).arena.read (s.heap f).arenaOffset n =
        s.arena.read (s.heap f).arenaOffset n := by
    intro f hf hne n hn
    show (s.arena.write ((s.loads l).arenaOffset + done) _).read _ _ = _
    rw [← hoff]
    exact hi.layout.read_other hr hf hne (hbytes ▸ hlt) _ hn
  refine hi.progress h hc rfl rfl rfl ?_ ?_ ?_
  · refine ⟨(h.pending l).mpr hp, hs, hd, hlt, hstaged, ?_⟩
    have hbyte : (payload p d)[done]? = some (s.staging ((s.loads l).stagingOffset + done)) := by
      rw [← hstaged, Memory.getElem?_read, if_pos hlt]
    rw [List.take_add_one, hbyte]
    exact Memory.read_write_append _ hcopied
  · intro i c hne hci
    have hok := hi.calls.ok i c hci
    cases c with
    | admission d' => exact hok
    | coalesced d' m => exact hok
    | reading d' m n => exact hok
    | readFailed d' m n e => exact hok
    | copying d' m n =>
      obtain ⟨hpm, hsm, hdm, hle, hst, hcp⟩ := hok
      refine ⟨(h.pending m).mpr hpm, hsm, hdm, hle, hst, ?_⟩
      have hml : m ≠ l := fun he => hne (hi.calls.owner i t _ _ l hci hc (he ▸ rfl) rfl)
      obtain ⟨hrm, -, hoffm⟩ := hi.layout.copying hpm hsm
      have hread := hother m hrm hml n (by rw [bytesOf, hdm]; exact hle)
      rw [hoffm] at hread
      exact hread.trans hcp
  · intro e he hready'
    have her : s.Resident p e := (h.resident e).mp he
    have hel : e ≠ l := by rintro rfl; rw [h.heap, hready] at hready'; cases hready'
    exact (hother e her hel _ le_rfl).trans (hi.contents e her hready')

end ExpertStreaming.RamCache
