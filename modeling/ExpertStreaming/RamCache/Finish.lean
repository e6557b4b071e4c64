import ExpertStreaming.RamCache.Holds

/-! # The RAM expert cache: the end of a load

A load ends in one section, successfully or not: its reservation is released, its
state becomes final for the callers coalesced onto it, and its owner leaves. What
both endings have in common is `Finished`.
-/
namespace ExpertStreaming.RamCache
open Lib State OrdMap

variable {p : Params} {s t : State} {i : Tid} {l : LoadId}

/-! ## Releasing a reservation -/

/-- The load `l` is no longer pending and reserves nothing. -/
structure Unreserved (p : Params) (s t : State) (l : LoadId) : Prop where
  entries : t.entries = s.entries
  byOffset : t.byOffset = s.byOffset
  next : t.next = s.next
  pendingMap : t.pending = s.pending.erase (s.keyOf p l)
  desc : ∀ e, (t.heap e).desc = (s.heap e).desc
  data : ∀ e, (t.heap e).data = (s.heap e).data
  arenaOffset : ∀ e, (t.heap e).arenaOffset = (s.heap e).arenaOffset
  ready : ∀ e, e ≠ l → (t.heap e).ready = (s.heap e).ready
  reservedBy : ∀ e, (t.heap e).reservedBy =
    if e ∈ (s.loads l).victims ∧ (s.heap e).reservedBy = some l then none
    else (s.heap e).reservedBy
  result : ∀ m, (t.loads m).result = (s.loads m).result
  victims : ∀ m, (t.loads m).victims = (s.loads m).victims
  stagingOffset : ∀ m, (t.loads m).stagingOffset = (s.loads m).stagingOffset
  claimOffset : ∀ m, (t.loads m).arenaOffset = (s.loads m).arenaOffset
  state : ∀ m, m ≠ l → (t.loads m).state = (s.loads m).state
  error : ∀ m, m ≠ l → (t.loads m).error = (s.loads m).error

namespace Unreserved

variable (h : Unreserved p s t l)
include h

variable (e : EntryId)

theorem keyOf : t.keyOf p e = s.keyOf p e := by simp only [State.keyOf, h.desc]

theorem bytesOf : t.bytesOf p e = s.bytesOf p e := by
  simp only [State.bytesOf, h.desc]

theorem region : t.region p e = s.region p e := by
  simp only [State.region, h.bytesOf, h.arenaOffset]

theorem claim (m : LoadId) : t.claim p m = s.claim p m := by
  simp only [State.claim, h.bytesOf, h.claimOffset, h.result]

theorem stage (m : LoadId) : t.stage p m = s.stage p m := by
  simp only [State.stage, h.bytesOf, h.stagingOffset, h.result]

theorem resident : t.Resident p e ↔ s.Resident p e := by
  simp only [State.Resident, h.keyOf, h.entries]

/-- Only the load itself leaves `pending_`. -/
theorem pending (hl : Layout p s) (hp : s.Pending p l) (m : LoadId) :
    t.Pending p m ↔ s.Pending p m ∧ m ≠ l := by
  rw [State.Pending, hl.result] at hp
  simp only [State.Pending, h.result, hl.result, h.keyOf, h.pendingMap, find?_erase]
  constructor
  · intro hm
    split at hm
    · cases hm
    next hne => exact ⟨hm, fun he => hne (he ▸ rfl)⟩
  · rintro ⟨hm, hne⟩
    rw [if_neg]
    · exact hm
    · intro hkey
      rw [hkey, hp] at hm
      exact hne (Option.some.inj hm).symm

theorem reservedBy_of_ne {e m} (hm : m ≠ l) :
    (t.heap e).reservedBy = some m ↔ (s.heap e).reservedBy = some m := by
  rw [h.reservedBy]
  split
  next hc => rw [hc.2]; simp [Ne.symm hm]
  · exact Iff.rfl

theorem layout (hl : Layout p s) (hp : s.Pending p l) : Layout p t where
  result m := by rw [h.result]; exact hl.result m
  entry_key k e := by rw [h.entries, h.keyOf]; exact hl.entry_key k e
  entry_fresh e := by rw [h.resident, h.next]; exact hl.entry_fresh e
  by_offset o e := by rw [h.byOffset, h.resident, h.arenaOffset]; exact hl.by_offset o e
  entry_aligned e := by rw [h.resident, h.arenaOffset]; exact hl.entry_aligned e
  entry_in e := by rw [h.resident, h.region]; exact hl.entry_in e
  entry_data e := by rw [h.resident, h.data, h.arenaOffset]; exact hl.entry_data e
  entry_apart e f := by
    rw [h.resident, h.resident, h.region, h.region]; exact hl.entry_apart e f
  load_key k m hm := by
    rw [h.keyOf]
    rw [h.pendingMap, find?_erase] at hm
    split at hm
    · cases hm
    · exact hl.load_key k m hm
  load_fresh m hm := by rw [h.next]; exact hl.load_fresh m ((h.pending hl hp m).mp hm).1
  load_phase m hm := by
    obtain ⟨hm, hne⟩ := (h.pending hl hp m).mp hm
    rw [h.state m hne, h.resident, h.ready m hne, h.arenaOffset, h.claimOffset]
    rcases hl.load_phase m hm with ⟨hs, hr, hnone⟩ | hcopy
    · refine .inl ⟨hs, hr, ?_⟩
      rw [h.reservedBy, hnone, if_neg (by simp)]
    · exact .inr hcopy
  load_error m hm := by
    obtain ⟨hm, hne⟩ := (h.pending hl hp m).mp hm
    rw [h.error m hne]; exact hl.load_error m hm
  claim_aligned m hm := by
    rw [h.claimOffset]; exact hl.claim_aligned m ((h.pending hl hp m).mp hm).1
  claim_in m hm := by rw [h.claim]; exact hl.claim_in m ((h.pending hl hp m).mp hm).1
  stage_in m hm := by rw [h.stage]; exact hl.stage_in m ((h.pending hl hp m).mp hm).1
  claim_apart m n hm hn := by
    rw [h.claim, h.claim]
    exact hl.claim_apart m n ((h.pending hl hp m).mp hm).1 ((h.pending hl hp n).mp hn).1
  stage_apart m n hm hn := by
    rw [h.stage, h.stage]
    exact hl.stage_apart m n ((h.pending hl hp m).mp hm).1 ((h.pending hl hp n).mp hn).1
  claim_clear m e hm he hne := by
    obtain ⟨hm, hml⟩ := (h.pending hl hp m).mp hm
    rw [h.reservedBy_of_ne hml, h.claim, h.region]
    exact hl.claim_clear m e hm ((h.resident e).mp he) hne
  victim m v hm hs hv := by
    obtain ⟨hm, hml⟩ := (h.pending hl hp m).mp hm
    rw [h.state m hml] at hs
    rw [h.victims] at hv
    obtain ⟨hres, hready, hmark⟩ := hl.victim m v hm hs hv
    -- a ready entry is not the result of a load in flight
    have hvl : v ≠ l := by
      rintro rfl
      rcases hl.load_phase v hp with hload | hcopy
      · exact hload.2.1 hres
      · rw [hcopy.2.2.1] at hready; cases hready
    exact ⟨(h.resident v).mpr hres, (h.ready v hvl).trans hready,
      (h.reservedBy_of_ne hml).mpr hmark⟩
  victims_nodup m hm := by
    rw [h.victims]; exact hl.victims_nodup m ((h.pending hl hp m).mp hm).1
  reserved e m he hmark := by
    rw [h.resident] at he
    have hml : m ≠ l := by
      rintro rfl
      rw [h.reservedBy] at hmark
      split at hmark
      · cases hmark
      next hc => exact hc ⟨(hl.reserved e m he hmark).2.2, hmark⟩
    obtain ⟨hm, hs, hv⟩ := hl.reserved e m he ((h.reservedBy_of_ne hml).mp hmark)
    exact ⟨(h.pending hl hp m).mpr ⟨hm, hml⟩, (h.state m hml).trans hs, h.victims m ▸ hv⟩

end Unreserved

/-! ## The owner leaves -/

/-- The load `l`, owned by thread `i`, has ended. -/
structure Finished (p : Params) (s t : State) (i : Tid) (l : LoadId) : Prop
    extends Unreserved p s t l where
  canonical : t.canonical = s.canonical
  byRecency : t.byRecency = s.byRecency
  less : ∀ (p : Params) a b, lruLess p (t.heap a) (t.heap b) = lruLess p (s.heap a) (s.heap b)
  staging : t.staging = s.staging
  arena : t.arena = s.arena
  calls : t.calls = s.calls.erase i
  useCount : ∀ m, (t.loads m).useCount =
    if m = l then (s.loads m).useCount - 2 else (s.loads m).useCount
  final : (t.loads l).state = .ready ∧ (t.loads l).error = none ∨
    (t.loads l).state = .failed ∧ (t.loads l).error.isSome
  reservedBytes : t.stats.reservedBytes = u64Sub s.stats.reservedBytes (s.bytesOf p l)
  stagingUsedBytes : t.stats.stagingUsedBytes = u64Sub s.stats.stagingUsedBytes (s.bytesOf p l)
  activeLoads : t.stats.activeLoads = u64Sub s.stats.activeLoads 1

namespace Finished

variable (h : Finished p s t i l)
include h

theorem calls_find {j c} (hj : t.calls.find? j = some c) :
    j ≠ i ∧ s.calls.find? j = some c := by
  rw [h.calls] at hj
  exact calls_leave hj

theorem canonical_inv (hi : Inv p s) (hp : s.Pending p l) : Canonical p t where
  entry e he := by
    rw [h.keyOf, h.desc, h.canonical]; exact hi.canonical.entry e ((h.resident e).mp he)
  load m hm := by
    rw [h.keyOf, h.desc, h.canonical]
    exact hi.canonical.load m ((h.pending hi.layout hp m).mp hm).1
  call j c hj := by rw [h.canonical]; exact hi.canonical.call j c (h.calls_find hj).2

theorem retention (hr : Retention p s) : Retention p t where
  resident e he := (h.resident e).mpr (hr.resident e (h.byRecency ▸ he))
  sorted := by rw [h.byRecency]; simpa only [h.less] using hr.sorted

theorem uses (hi : Inv p s) (hp : s.Pending p l) {c} (hc : s.calls.find? i = some c)
    (ho : c.owned? = some l) : Uses t := by
  intro m
  have huse := hi.uses m
  have hholders := holders_erase hc m
  rw [State.Pending, hi.layout.result] at hp
  have hpending := sumBy_erase (fun _ n => if n = m then 1 else 0) hp
  rw [Call.load_of_owned ho] at hholders
  rw [h.useCount, holders, h.calls, h.pendingMap]
  show _ = (s.leave i).holders m + _
  by_cases hm : m = l
  · subst hm
    simp only [if_true] at hholders hpending
    rw [if_pos rfl]
    omega
  · simp only [Option.some.injEq, if_neg (Ne.symm hm)] at hholders hpending
    rw [if_neg hm]
    omega

theorem call_ok (hi : Inv p s) (hp : s.Pending p l) {c} (hc : s.calls.find? i = some c)
    (ho : c.owned? = some l) {j c'} (hj : t.calls.find? j = some c') :
    CallOk p t c' := by
  obtain ⟨hne, hj⟩ := h.calls_find hj
  have hok := hi.calls.ok j c' hj
  -- an owner of another load sees nothing of this one
  have hother : ∀ m, c'.owned? = some m → m ≠ l := fun m hm he =>
    hne (hi.calls.owner j i c' c l hj hc (he ▸ hm) ho)
  have hpend := fun m => h.pending hi.layout hp m
  cases c' with
  | admission d => exact hok
  | coalesced d m =>
    obtain ⟨hd, hfresh, hphase⟩ := hok
    refine ⟨(h.desc m).trans hd, h.next ▸ hfresh, ?_⟩
    by_cases hm : m = l
    · exact .inr (hm ▸ h.final)
    · rw [h.state m hm, h.error m hm]
      exact hphase.imp_left fun hpm => (hpend m).mpr ⟨hpm, hm⟩
  | reading d m done =>
    obtain ⟨hpm, hs, hd, hrest⟩ := hok
    have hm := hother m rfl
    refine ⟨(hpend m).mpr ⟨hpm, hm⟩, (h.state m hm).trans hs, (h.desc m).trans hd, ?_⟩
    rw [h.staging, h.stagingOffset]
    exact hrest
  | readFailed d m done error =>
    obtain ⟨hpm, hs, hd⟩ := hok
    have hm := hother m rfl
    exact ⟨(hpend m).mpr ⟨hpm, hm⟩, (h.state m hm).trans hs, (h.desc m).trans hd⟩
  | copying d m done =>
    obtain ⟨hpm, hs, hd, hrest⟩ := hok
    have hm := hother m rfl
    refine ⟨(hpend m).mpr ⟨hpm, hm⟩, (h.state m hm).trans hs, (h.desc m).trans hd, ?_⟩
    rw [h.staging, h.stagingOffset, h.arena, h.claimOffset]
    exact hrest

theorem calls_inv (hi : Inv p s) (hp : s.Pending p l) {c} (hc : s.calls.find? i = some c)
    (ho : c.owned? = some l) : Calls p t where
  ok _ _ hj := h.call_ok hi hp hc ho hj
  owner j j' c₁ c₂ m h₁ h₂ :=
    hi.calls.owner j j' c₁ c₂ m (h.calls_find h₁).2 (h.calls_find h₂).2
  owned m hm := by
    obtain ⟨hm, hml⟩ := (h.pending hi.layout hp m).mp hm
    obtain ⟨j, c', hj, ho'⟩ := hi.calls.owned m hm
    refine ⟨j, c', ?_, ho'⟩
    have hne : j ≠ i := by
      rintro rfl
      rw [hc] at hj; cases hj
      rw [ho] at ho'
      exact hml (Option.some.inj ho').symm
    rw [h.calls, find?_erase, if_neg hne]
    exact hj

theorem counters (hi : Inv p s) (hp : s.Pending p l)
    (hresident : t.stats.residentBytes =
      t.entries.sumBy fun _ e => if (t.heap e).ready then t.bytesOf p e else 0) :
    Counters p t := by
  rw [State.Pending, hi.layout.result] at hp
  have hsum := fun f : LoadId → Nat => sumBy_erase (fun _ m => f m) hp
  refine ⟨hresident, ?_, ?_, ?_⟩
  · rw [h.reservedBytes, hi.counters.reserved, h.pendingMap, hsum,
      u64Sub_of_le (Nat.le_add_right _ _)]
    simp only [h.bytesOf, Nat.add_sub_cancel_left]
  · rw [h.stagingUsedBytes, hi.counters.staging, h.pendingMap, hsum,
      u64Sub_of_le (Nat.le_add_right _ _)]
    simp only [h.bytesOf, Nat.add_sub_cancel_left]
  · rw [h.activeLoads, hi.counters.active, h.pendingMap, hsum,
      u64Sub_of_le (Nat.le_add_right _ _), Nat.add_sub_cancel_left]

end Finished

/-! ## Failure -/

def State.failing (p : Params) (s : State) (i : Tid) (l : LoadId) (error : CacheError) : State :=
  let s := s.modifyLoad l fun x => { x with error := some error, state := .failed }
  let s := s.modifyStats fun x => { x with failedLoads := x.failedLoads + 1 }
  (s.releaseReservation p l).leave i

theorem failLoad_eq (p : Params) (s : State) (i : Tid) (l : LoadId) (error : CacheError) :
    s.failLoad p i l error = ((s.failing p i l error).dropLoad l, .threw error) := rfl

theorem failing_loads (p : Params) (s : State) (i : Tid) (l : LoadId) (error : CacheError)
    (m : LoadId) : (s.failing p i l error).loads m =
      if m = l then { s.loads m with
        error := some error, state := .failed, useCount := (s.loads m).useCount - 1 }
      else s.loads m := by
  by_cases hm : m = l
  · simp [failing, releaseReservation, leave, modifyLoad,
      modifyStats, hm]
  · simp [failing, releaseReservation, leave, modifyLoad,
      modifyStats, hm]

theorem failing_heap (p : Params) (s : State) (i : Tid) (l : LoadId) (error : CacheError)
    (e : EntryId) : (s.failing p i l error).heap e =
      if e ∈ (s.loads l).victims ∧ (s.heap e).reservedBy = some l then
        { s.heap e with reservedBy := none } else s.heap e := by
  simp [failing, releaseReservation, leave, modifyLoad, modifyStats]

/-- What a failing section does besides ending the load. -/
structure Failed (p : Params) (s t : State) (i : Tid) (l : LoadId) (cause : CacheError) : Prop
    extends Finished p s t i l where
  ready_eq : ∀ e, (t.heap e).ready = (s.heap e).ready
  pins : ∀ e, (t.heap e).pins = (s.heap e).pins
  leases : t.leases = s.leases
  nextLease : t.nextLease = s.nextLease
  residentBytes : t.stats.residentBytes = s.stats.residentBytes
  failed : (t.loads l).state = .failed ∧ (t.loads l).error = some cause
  observations : t.observations = s.observations

theorem dropLoad_observations (s : State) (l : LoadId) :
    (s.dropLoad l).observations = s.observations := by
  unfold dropLoad
  dsimp only
  split <;> rfl

theorem failLoad_spec (hres : ∀ m, (s.loads m).result = m) (i : Tid) (l : LoadId)
    (error : CacheError) : Failed p s (s.failLoad p i l error).1 i l error := by
  rw [failLoad_eq]
  have hloads := failing_loads p s i l error
  have hheap := failing_heap p s i l error
  have hresult : ((s.failing p i l error).loads l).result = l := by
    rw [hloads, if_pos rfl]; exact hres l
  have hd := dropLoad_spec hresult
  have hfailed : ((s.failing p i l error).loads l).state = .failed := by rw [hloads, if_pos rfl]
  have hkey : (s.modifyLoad l fun x => { x with error := some error, state := .failed }).keyOf p
      ((s.modifyLoad l fun x => { x with error := some error, state := .failed }).loads l).result =
      s.keyOf p l := by
    simp only [modifyLoad, if_true, hres]; rfl
  have hbytes : (s.modifyLoad l fun x => { x with error := some error, state := .failed }).bytesOf p
      ((s.modifyLoad l fun x => { x with error := some error, state := .failed }).loads l).result =
      s.bytesOf p l := by
    simp only [modifyLoad, if_true, hres]; rfl
  refine ⟨⟨⟨hd.entries, hd.byOffset, hd.next, ?_, ?_, ?_, ?_, ?_, ?_, ?_, ?_, ?_, ?_, ?_, ?_⟩,
    hd.canonical, hd.byRecency, ?_, hd.staging, hd.arena, hd.calls, ?_, ?_, ?_, ?_, hd.activeLoads⟩,
    ?_, ?_, hd.leases, hd.nextLease, hd.residentBytes, ?_, dropLoad_observations _ l⟩
  · rw [hd.pendingMap, ← hkey]; rfl
  · intro e; rw [hd.desc, hheap]; split <;> rfl
  · intro e; rw [hd.heap, hheap]; split <;> rfl
  · intro e; rw [hd.heap, hheap]; split <;> rfl
  · intro e _; rw [hd.heap, hheap]; split <;> rfl
  · intro e; rw [hd.reservedBy, hheap]; split <;> rfl
  · intro m; rw [hd.result, hloads]; split <;> rfl
  · intro m; rw [hd.victims, hloads]; split <;> rfl
  · intro m; rw [hd.stagingOffset, hloads]; split <;> rfl
  · intro m; rw [hd.claimOffset, hloads]; split <;> rfl
  · intro m hm; rw [hd.state, hloads, if_neg hm]
  · intro m hm; rw [hd.error, hloads, if_neg hm]
  · intro q a b
    rw [hd.less, hheap, hheap]
    split <;> split <;> rfl
  · intro m
    rw [hd.useCount, hloads]
    by_cases hm : m = l
    · simp only [if_pos hm]; omega
    · simp only [if_neg hm]
  · rw [hd.state, hd.error, hloads, if_pos rfl]
    exact .inr ⟨rfl, rfl⟩
  · rw [hd.reservedBytes, ← hbytes]; rfl
  · rw [hd.stagingUsedBytes, ← hbytes]; rfl
  · intro e; rw [hd.heap, hheap]; split <;> rfl
  · intro e
    rw [hd.pins, if_neg (fun h => by rw [hfailed] at h; exact absurd h.2.2 (by simp)), hheap]
    split <;> rfl
  · rw [hd.state, hd.error, hloads, if_pos rfl]
    exact ⟨rfl, rfl⟩

/-- **A failed load leaves the invariant standing.** -/
theorem Inv.failLoad (hi : Inv p s) {c} (hc : s.calls.find? i = some c) (ho : c.owned? = some l)
    (hp : s.Pending p l) (error : CacheError) :
    Inv p (s.failLoad p i l error).1 := by
  have h := failLoad_spec (p := p) hi.layout.result i l error
  refine ⟨h.layout hi.layout hp, h.canonical_inv hi hp, h.retention hi.retention,
    h.counters hi hp ?_, ⟨?_, ?_, ?_, ?_⟩, h.uses hi hp hc ho, h.calls_inv hi hp hc ho, ?_⟩
  · simp only [h.residentBytes, h.entries, h.ready_eq, h.bytesOf]
    exact hi.counters.resident
  · intro e
    rw [h.pins, hi.pins.count, leaseCount, leaseCount, h.leases]
    congr 1
    -- neither before nor after does this load hold a completion pin
    unfold completionPin
    by_cases he : e = l
    · subst he
      have hbefore : (s.loads e).state ≠ .ready := by
        rcases hi.layout.load_phase e hp with hload | hcopy
        · rw [hload.1]; simp
        · rw [hcopy.1]; simp
      rw [if_neg (fun hx => hbefore hx.1), if_neg]
      rw [h.failed.1]; simp
    · rw [h.state e he, h.useCount, if_neg he]
  · intro j x hx
    rw [h.resident, h.ready_eq, h.desc]
    exact hi.pins.lease j x (h.leases ▸ hx)
  · intro j x hx
    rw [h.nextLease]
    exact hi.pins.lease_fresh j x (h.leases ▸ hx)
  · rintro m ⟨hstate, huse⟩
    rw [h.resident, h.ready_eq]
    have hm : m ≠ l := by rintro rfl; rw [h.failed.1] at hstate; cases hstate
    rw [h.state m hm] at hstate
    rw [h.useCount, if_neg hm] at huse
    exact hi.pins.completing m ⟨hstate, huse⟩
  · intro e he hready
    rw [h.arenaOffset, h.bytesOf, h.desc, h.arena]
    exact hi.contents e ((h.resident e).mp he) (h.ready_eq e ▸ hready)

/-! ## Success -/

def State.completing (p : Params) (s : State) (i : Tid) (d : DescId) (l : LoadId) : State :=
  let e := (s.loads l).result
  let bytes := (p.descriptor d).bytes
  let s := s.modifyEntry e fun x => { x with ready := true, pins := x.pins + 1 }
  let s := s.modifyLoad l fun x => { x with state := .ready }
  let s := s.modifyStats fun x => { x with
    residentBytes := x.residentBytes + bytes
    peakResidentBytes := max x.peakResidentBytes (x.residentBytes + bytes) }
  ((s.releaseReservation p l).grant e d).leave i

theorem complete_eq (p : Params) (s : State) (i : Tid) (d : DescId) (l : LoadId) :
    s.complete p i d l = ((s.completing p i d l).dropLoad l, .leased s.nextLease) := rfl

variable {d : DescId}

theorem completing_loads (p : Params) (s : State) (i : Tid) (d : DescId) (l m : LoadId) :
    (s.completing p i d l).loads m =
      if m = l then { s.loads m with state := .ready, useCount := (s.loads m).useCount - 1 }
      else s.loads m := by
  by_cases hm : m = l
  · simp [completing, releaseReservation, leave, modifyLoad,
      modifyStats, modifyEntry, grant, hm]
  · simp [completing, releaseReservation, leave, modifyLoad,
      modifyStats, modifyEntry, grant, hm]

theorem completing_heap (hres : (s.loads l).result = l) (i : Tid) (d : DescId) (e : EntryId) :
    ∃ mark, (s.completing p i d l).heap e =
        (if e = l then { s.heap e with
            ready := true, pins := (s.heap e).pins + 2, reservedBy := mark }
          else { s.heap e with reservedBy := mark }) ∧
      mark = if e ∈ (s.loads l).victims ∧ (s.heap e).reservedBy = some l then none
        else (s.heap e).reservedBy := by
  refine ⟨_, ?_, rfl⟩
  by_cases he : e = l
  · subst he
    by_cases hv : e ∈ (s.loads e).victims ∧ (s.heap e).reservedBy = some e
    · simp [completing, releaseReservation, leave, modifyLoad,
        modifyStats, modifyEntry, grant, hres, hv]
    · simp [completing, releaseReservation, leave, modifyLoad,
        modifyStats, modifyEntry, grant, hres, hv]
  · by_cases hv : e ∈ (s.loads l).victims ∧ (s.heap e).reservedBy = some l
    · simp [completing, releaseReservation, leave, modifyLoad,
        modifyStats, modifyEntry, grant, hres, hv, he]
    · simp [completing, releaseReservation, leave, modifyLoad,
        modifyStats, modifyEntry, grant, hres, hv, he]

/-- What a completing section does besides ending the load. -/
structure Completed (p : Params) (s t : State) (i : Tid) (d : DescId) (l : LoadId) : Prop
    extends Finished p s t i l where
  ready_self : (t.heap l).ready = true
  residentBytes : t.stats.residentBytes = s.stats.residentBytes + (p.descriptor d).bytes
  leases : t.leases = s.leases.insert s.nextLease ⟨l, d⟩
  nextLease : t.nextLease = s.nextLease + 1
  observations : t.observations = s.observations
  succeeded : (t.loads l).state = .ready ∧ (t.loads l).error = none

theorem complete_spec (hres : ∀ m, (s.loads m).result = m) (herror : (s.loads l).error = none)
    (i : Tid) (d : DescId) : Completed p s (s.complete p i d l).1 i d l := by
  rw [complete_eq]
  have hloads := completing_loads p s i d l
  have hheap := completing_heap (p := p) (hres l) i d
  have hresult : ((s.completing p i d l).loads l).result = l := by
    rw [hloads, if_pos rfl]; exact hres l
  have hd := dropLoad_spec hresult
  refine ⟨⟨⟨hd.entries, hd.byOffset, hd.next, ?_, ?_, ?_, ?_, ?_, ?_, ?_, ?_, ?_, ?_, ?_, ?_⟩,
    hd.canonical, hd.byRecency, ?_, hd.staging, hd.arena, hd.calls, ?_, ?_, ?_, ?_, hd.activeLoads⟩,
    ?_, hd.residentBytes, ?_, hd.nextLease, dropLoad_observations _ l, ?_⟩
  · rw [hd.pendingMap]
    simp [completing, releaseReservation, leave, modifyLoad,
      modifyStats, modifyEntry, grant, keyOf, hres]
  · intro e
    obtain ⟨mark, he, _⟩ := hheap e
    rw [hd.desc, he]; split <;> rfl
  · intro e
    obtain ⟨mark, he, _⟩ := hheap e
    rw [hd.heap, he]; split <;> rfl
  · intro e
    obtain ⟨mark, he, _⟩ := hheap e
    rw [hd.heap, he]; split <;> rfl
  · intro e hne
    obtain ⟨mark, he, _⟩ := hheap e
    rw [hd.heap, he, if_neg hne]
  · intro e
    obtain ⟨mark, he, hmark⟩ := hheap e
    rw [hd.reservedBy, he, ← hmark]; split <;> rfl
  · intro m; rw [hd.result, hloads]; split <;> rfl
  · intro m; rw [hd.victims, hloads]; split <;> rfl
  · intro m; rw [hd.stagingOffset, hloads]; split <;> rfl
  · intro m; rw [hd.claimOffset, hloads]; split <;> rfl
  · intro m hm; rw [hd.state, hloads, if_neg hm]
  · intro m hm; rw [hd.error, hloads, if_neg hm]
  · intro q a b
    obtain ⟨_, ha, _⟩ := hheap a
    obtain ⟨_, hb, _⟩ := hheap b
    rw [hd.less, ha, hb]
    split <;> split <;> rfl
  · intro m
    rw [hd.useCount, hloads]
    by_cases hm : m = l
    · simp only [if_pos hm]; omega
    · simp only [if_neg hm]
  · rw [hd.state, hd.error, hloads, if_pos rfl]
    exact .inl ⟨rfl, herror⟩
  · rw [hd.reservedBytes]
    simp [completing, releaseReservation, leave, modifyLoad,
      modifyStats, modifyEntry, grant, bytesOf, hres]
  · rw [hd.stagingUsedBytes]
    simp [completing, releaseReservation, leave, modifyLoad,
      modifyStats, modifyEntry, grant, bytesOf, hres]
  · obtain ⟨_, he, _⟩ := hheap l
    rw [hd.heap, he, if_pos rfl]
  · rw [hd.leases]
    simp [completing, releaseReservation, leave, modifyLoad,
      modifyStats, modifyEntry, grant, hres]
  · rw [hd.state, hd.error, hloads, if_pos rfl]
    exact ⟨rfl, herror⟩

theorem completing_pins (hi : Inv p s) (hp : s.Pending p l) (hcopy : (s.loads l).state = .copying)
    (hheld : 2 ≤ (s.loads l).useCount) (hdesc : (s.heap l).desc = d) :
    Pins p (s.completing p i d l) := by
  have hloads := completing_loads p s i d l
  have hheap := completing_heap (p := p) (hi.layout.result l) i d
  have hresident := (hi.layout.copying hp hcopy).1
  have hkey : ∀ e, (s.completing p i d l).keyOf p e = s.keyOf p e := by
    intro e
    obtain ⟨_, he, _⟩ := hheap e
    simp only [keyOf, he]; split <;> rfl
  have hres : ∀ e, (s.completing p i d l).Resident p e ↔ s.Resident p e := by
    intro e; simp only [State.Resident, hkey]; rfl
  have hdescs : ∀ e, ((s.completing p i d l).heap e).desc = (s.heap e).desc := by
    intro e
    obtain ⟨_, he, _⟩ := hheap e
    rw [he]; split <;> rfl
  have hready : ∀ e, (s.heap e).ready = true → ((s.completing p i d l).heap e).ready = true := by
    intro e hr
    obtain ⟨_, he, _⟩ := hheap e
    rw [he]; split
    · rfl
    · exact hr
  have hself : ((s.completing p i d l).heap l).ready = true := by
    obtain ⟨_, he, _⟩ := hheap l
    rw [he, if_pos rfl]
  have hleases : (s.completing p i d l).leases = s.leases.insert s.nextLease ⟨l, d⟩ := by
    simp [completing, releaseReservation, leave, modifyLoad,
      modifyStats, modifyEntry, grant, hi.layout.result]
  have hfresh : s.leases.find? s.nextLease = none := by
    cases hf : s.leases.find? s.nextLease with
    | none => rfl
    | some x => exact absurd (hi.pins.lease_fresh _ x hf) (lt_irrefl _)
  refine ⟨?_, ?_, ?_, ?_⟩
  · intro e
    have hcount := hi.pins.count e
    obtain ⟨_, he, _⟩ := hheap e
    rw [leaseCount, hleases, leaseCount_insert hfresh, completionPin, hloads, he]
    unfold completionPin at hcount
    by_cases hel : e = l
    · subst hel
      rw [hcopy, if_neg (by simp)] at hcount
      simp only [if_true, true_and]
      rw [if_pos (by omega)]
      omega
    · simp only [if_neg hel, if_neg (Ne.symm hel)]
      omega
  · intro j x hx
    rw [hleases, find?_insert] at hx
    rw [hres, hdescs]
    split at hx
    · cases hx; exact ⟨hresident, hself, hdesc⟩
    · obtain ⟨h₁, h₂, h₃⟩ := hi.pins.lease j x hx
      exact ⟨h₁, hready _ h₂, h₃⟩
  · intro j x hx
    rw [hleases, find?_insert] at hx
    show j < s.nextLease + 1
    split at hx
    next hnew => exact hnew ▸ Nat.lt_succ_self _
    · exact (hi.pins.lease_fresh j x hx).trans (Nat.lt_succ_self _)
  · rintro m ⟨hstate, huse⟩
    rw [hres]
    by_cases hm : m = l
    · subst hm; exact ⟨hresident, hself⟩
    · rw [hloads, if_neg hm] at hstate huse
      obtain ⟨h₁, h₂⟩ := hi.pins.completing m ⟨hstate, huse⟩
      exact ⟨h₁, hready _ h₂⟩

/-- **Publication of a copied entry keeps the invariant.** -/
theorem Inv.complete (hi : Inv p s)
    (hc : s.calls.find? i = some (.copying d l (p.descriptor d).bytes)) :
    Inv p (s.complete p i d l).1 := by
  obtain ⟨hp, hcopy, hdesc, _, _, harena⟩ := hi.calls.ok i _ hc
  have herror := hi.layout.load_error l hp
  have h := complete_spec (p := p) hi.layout.result herror i d
  obtain ⟨hresident, hunready, hoffset⟩ := hi.layout.copying hp hcopy
  have hbytes : s.bytesOf p l = (p.descriptor d).bytes := by rw [bytesOf, hdesc]
  have hheld : 2 ≤ (s.loads l).useCount := by
    have huse := hi.uses l
    have hholders := holders_erase hc l
    have hpend := hp
    rw [State.Pending, hi.layout.result] at hpend
    have hmap := sumBy_erase (fun _ m => if m = l then 1 else 0) hpend
    simp only [Call.load?, if_true] at hholders hmap
    omega
  refine ⟨h.layout hi.layout hp, h.canonical_inv hi hp, h.retention hi.retention,
    h.counters hi hp ?_, ?_, h.uses hi hp hc rfl, h.calls_inv hi hp hc rfl, ?_⟩
  · -- the entry's bytes join the resident count as it becomes ready
    have hchange := sumBy_change (m := s.entries) (k := s.keyOf p l) (v := l)
      (f := fun _ e => if (s.heap e).ready then s.bytesOf p e else 0)
      (g := fun _ e => if ((s.complete p i d l).1.heap e).ready then s.bytesOf p e else 0)
      hresident (fun k e hk hne => by
        have hel : e ≠ l := fun he => hne (by rw [← hi.layout.entry_key k e hk, he])
        simp only [h.ready e hel])
    simp only [h.ready_self, hunready, if_true, Bool.false_eq_true, if_false] at hchange
    rw [h.residentBytes, hi.counters.resident, h.entries, ← hbytes]
    simp only [h.bytesOf]
    omega
  · have hpins := completing_pins (i := i) hi hp hcopy hheld hdesc
    have hloads := completing_loads p s i d l l
    rw [if_pos rfl] at hloads
    refine hpins.drop (dropLoad_spec ?_) ?_
    · rw [hloads]; exact hi.layout.result l
    · rw [hloads]; show 0 < (s.loads l).useCount - 1; omega
  · intro e he hready
    rw [h.arenaOffset, h.bytesOf, h.desc, h.arena]
    by_cases hel : e = l
    · subst hel
      rw [hoffset, hbytes, hdesc, harena, List.take_of_length_le (by rw [length_payload])]
    · exact hi.contents e ((h.resident e).mp he) (h.ready e hel ▸ hready)

end ExpertStreaming.RamCache
