import ExpertStreaming.RamCache.Machine

/-! # The RAM expert cache: what always holds

The invariant is split by what it talks about, so that a step that leaves one
part of the state alone keeps that part of the invariant by a transfer lemma.
Nothing here assumes that `by_recency_` lists every entry: an exception thrown
out of `touch` can strand an entry, and the arena must stay safe even then.
-/
namespace ExpertStreaming.RamCache
open Lib

variable {p : Params} {s t : State}

/-! ## Placement -/

/-- Where entries, reservations and staging regions lie, and who reserved what. -/
structure Layout (p : Params) (s : State) : Prop where
  result : ∀ l, (s.loads l).result = l
  entry_key : ∀ k e, s.entries.find? k = some e → s.keyOf p e = k
  entry_fresh : ∀ e, s.Resident p e → e < s.next
  by_offset : ∀ o e, s.byOffset.find? o = some e ↔ s.Resident p e ∧ (s.heap e).arenaOffset = o
  entry_aligned : ∀ e, s.Resident p e → 64 ∣ (s.heap e).arenaOffset
  entry_in : ∀ e, s.Resident p e → (s.region p e).stop ≤ p.config.capacityBytes
  entry_data : ∀ e, s.Resident p e → (s.heap e).data = some (s.heap e).arenaOffset
  entry_apart : ∀ e f, s.Resident p e → s.Resident p f → e ≠ f →
    (s.region p e).Apart (s.region p f)
  load_key : ∀ k l, s.pending.find? k = some l → s.keyOf p l = k
  load_fresh : ∀ l, s.Pending p l → l < s.next
  load_phase : ∀ l, s.Pending p l →
    (s.loads l).state = .loading ∧ ¬ s.Resident p l ∧ (s.heap l).reservedBy = none ∨
    (s.loads l).state = .copying ∧ s.Resident p l ∧ (s.heap l).ready = false ∧
      (s.heap l).arenaOffset = (s.loads l).arenaOffset
  load_error : ∀ l, s.Pending p l → (s.loads l).error = none
  claim_aligned : ∀ l, s.Pending p l → 64 ∣ (s.loads l).arenaOffset
  claim_in : ∀ l, s.Pending p l → (s.claim p l).stop ≤ p.config.capacityBytes
  stage_in : ∀ l, s.Pending p l → (s.stage p l).stop ≤ p.config.stagingBytes
  claim_apart : ∀ l m, s.Pending p l → s.Pending p m → l ≠ m →
    (s.claim p l).Apart (s.claim p m)
  stage_apart : ∀ l m, s.Pending p l → s.Pending p m → l ≠ m →
    (s.stage p l).Apart (s.stage p m)
  claim_clear : ∀ l e, s.Pending p l → s.Resident p e → e ≠ l →
    (s.heap e).reservedBy = some l ∨ (s.claim p l).Apart (s.region p e)
  victim : ∀ l v, s.Pending p l → (s.loads l).state = .loading → v ∈ (s.loads l).victims →
    s.Resident p v ∧ (s.heap v).ready = true ∧ (s.heap v).reservedBy = some l
  victims_nodup : ∀ l, s.Pending p l → (s.loads l).victims.Nodup
  reserved : ∀ e l, s.Resident p e → (s.heap e).reservedBy = some l →
    s.Pending p l ∧ (s.loads l).state = .loading ∧ e ∈ (s.loads l).victims

theorem Layout.loading {p : Params} {s : State} {l : LoadId} (hl : Layout p s) (hp : s.Pending p l)
    (hs : (s.loads l).state = .loading) : ¬ s.Resident p l ∧ (s.heap l).reservedBy = none := by
  rcases hl.load_phase l hp with hload | hcopy
  · exact hload.2
  · rw [hcopy.1] at hs; cases hs

theorem Layout.copying {p : Params} {s : State} {l : LoadId} (hl : Layout p s) (hp : s.Pending p l)
    (hs : (s.loads l).state = .copying) : s.Resident p l ∧ (s.heap l).ready = false ∧
      (s.heap l).arenaOffset = (s.loads l).arenaOffset := by
  rcases hl.load_phase l hp with hload | hcopy
  · rw [hload.1] at hs; cases hs
  · exact hcopy.2

theorem Layout.of_idle {p : Params} {s : State} (hresult : ∀ l, (s.loads l).result = l)
    (hentries : ∀ k, s.entries.find? k = none) (hbyOffset : ∀ o, s.byOffset.find? o = none)
    (hkey : ∀ k l, s.pending.find? k = some l → s.keyOf p l = k) (hidle : ∀ l, ¬ s.Pending p l) :
    Layout p s := by
  have hnone : ∀ e, ¬ s.Resident p e := fun e he => (nomatch (hentries _).symm.trans he)
  exact {
    result := hresult
    entry_key := fun k e h => (nomatch (hentries k).symm.trans h)
    load_key := hkey
    by_offset := fun o e => iff_of_false (fun h => (nomatch (hbyOffset o).symm.trans h))
      fun h => hnone e h.1
    entry_fresh := fun e h => absurd h (hnone e)
    entry_aligned := fun e h => absurd h (hnone e)
    entry_in := fun e h => absurd h (hnone e)
    entry_data := fun e h => absurd h (hnone e)
    entry_apart := fun e f h => absurd h (hnone e)
    reserved := fun e l h => absurd h (hnone e)
    load_fresh := fun l h => absurd h (hidle l)
    load_phase := fun l h => absurd h (hidle l)
    load_error := fun l h => absurd h (hidle l)
    claim_aligned := fun l h => absurd h (hidle l)
    claim_in := fun l h => absurd h (hidle l)
    stage_in := fun l h => absurd h (hidle l)
    claim_apart := fun l m h => absurd h (hidle l)
    stage_apart := fun l m h => absurd h (hidle l)
    claim_clear := fun l e h => absurd h (hidle l)
    victim := fun l v h => absurd h (hidle l)
    victims_nodup := fun l h => absurd h (hidle l) }

/-- Two states agree on everything placement depends on; an entry that is not indexed has no
place yet. -/
structure SameLayout (s t : State) : Prop where
  entries : t.entries = s.entries
  byOffset : t.byOffset = s.byOffset
  pendingMap : t.pending = s.pending
  next : t.next = s.next
  desc : ∀ e, (t.heap e).desc = (s.heap e).desc
  data : ∀ {k e}, s.entries.find? k = some e → (t.heap e).data = (s.heap e).data
  arenaOffset : ∀ {k e}, s.entries.find? k = some e →
    (t.heap e).arenaOffset = (s.heap e).arenaOffset
  ready : ∀ {k e}, s.entries.find? k = some e → (t.heap e).ready = (s.heap e).ready
  reservedBy : ∀ e, (t.heap e).reservedBy = (s.heap e).reservedBy
  state : ∀ l, (t.loads l).state = (s.loads l).state
  result : ∀ l, (t.loads l).result = (s.loads l).result
  victims : ∀ l, (t.loads l).victims = (s.loads l).victims
  stagingOffset : ∀ l, (t.loads l).stagingOffset = (s.loads l).stagingOffset
  claimOffset : ∀ l, (t.loads l).arenaOffset = (s.loads l).arenaOffset
  error : ∀ l, (t.loads l).error = (s.loads l).error

namespace SameLayout

theorem refl (s : State) : SameLayout s s := by constructor <;> intros <;> rfl

theorem trans {u} (h : SameLayout s t) (h' : SameLayout t u) : SameLayout s u where
  entries := h'.entries.trans h.entries
  byOffset := h'.byOffset.trans h.byOffset
  pendingMap := h'.pendingMap.trans h.pendingMap
  next := h'.next.trans h.next
  desc e := (h'.desc e).trans (h.desc e)
  data hk := (h'.data (h.entries ▸ hk)).trans (h.data hk)
  arenaOffset hk := (h'.arenaOffset (h.entries ▸ hk)).trans (h.arenaOffset hk)
  ready hk := (h'.ready (h.entries ▸ hk)).trans (h.ready hk)
  reservedBy e := (h'.reservedBy e).trans (h.reservedBy e)
  state l := (h'.state l).trans (h.state l)
  result l := (h'.result l).trans (h.result l)
  victims l := (h'.victims l).trans (h.victims l)
  stagingOffset l := (h'.stagingOffset l).trans (h.stagingOffset l)
  claimOffset l := (h'.claimOffset l).trans (h.claimOffset l)
  error l := (h'.error l).trans (h.error l)

variable (h : SameLayout s t)
include h

variable (e : EntryId)

theorem keyOf : t.keyOf p e = s.keyOf p e := by simp only [State.keyOf, h.desc]

theorem bytesOf : t.bytesOf p e = s.bytesOf p e := by
  simp only [State.bytesOf, h.desc]

theorem region {e} (he : s.Resident p e) : t.region p e = s.region p e := by
  simp only [State.region, h.bytesOf, h.arenaOffset he]

theorem claim (l : LoadId) : t.claim p l = s.claim p l := by
  simp only [State.claim, h.bytesOf, h.claimOffset, h.result]

theorem stage (l : LoadId) : t.stage p l = s.stage p l := by
  simp only [State.stage, h.bytesOf, h.stagingOffset, h.result]

theorem resident : t.Resident p e ↔ s.Resident p e := by
  simp only [State.Resident, h.keyOf, h.entries]

theorem pending (l : LoadId) : t.Pending p l ↔ s.Pending p l := by
  simp only [State.Pending, h.keyOf, h.pendingMap, h.result]

theorem served : t.Resident p e ∧ (t.heap e).ready = true ↔
    s.Resident p e ∧ (s.heap e).ready = true := by
  rw [h.resident]
  exact and_congr_right fun he => by rw [h.ready he]

theorem leased (d : DescId) :
    t.Resident p e ∧ (t.heap e).ready = true ∧ (t.heap e).desc = d ↔
      s.Resident p e ∧ (s.heap e).ready = true ∧ (s.heap e).desc = d := by
  rw [← and_assoc, h.served, h.desc, and_assoc]

end SameLayout

theorem Layout.transfer (hl : Layout p s) (h : SameLayout s t) : Layout p t where
  result l := by rw [h.result]; exact hl.result l
  entry_key k e := by rw [h.entries, h.keyOf]; exact hl.entry_key k e
  entry_fresh e := by rw [h.resident, h.next]; exact hl.entry_fresh e
  by_offset o e := by
    rw [h.byOffset, h.resident]
    exact (hl.by_offset o e).trans (and_congr_right fun he => by rw [h.arenaOffset he])
  entry_aligned e := by
    rw [h.resident]; intro he; rw [h.arenaOffset he]; exact hl.entry_aligned e he
  entry_in e := by rw [h.resident]; intro he; rw [h.region he]; exact hl.entry_in e he
  entry_data e := by
    rw [h.resident]; intro he; rw [h.data he, h.arenaOffset he]; exact hl.entry_data e he
  entry_apart e f := by
    rw [h.resident, h.resident]; intro he hf
    rw [h.region he, h.region hf]; exact hl.entry_apart e f he hf
  load_key k l := by rw [h.pendingMap, h.keyOf]; exact hl.load_key k l
  load_fresh l := by rw [h.pending, h.next]; exact hl.load_fresh l
  load_phase l := by
    rw [h.pending, h.state, h.resident, h.reservedBy, h.claimOffset]
    refine fun hp => (hl.load_phase l hp).imp_right fun hcopy => ?_
    rw [h.ready hcopy.2.1, h.arenaOffset hcopy.2.1]
    exact hcopy
  load_error l := by rw [h.pending, h.error]; exact hl.load_error l
  claim_aligned l := by rw [h.pending, h.claimOffset]; exact hl.claim_aligned l
  claim_in l := by rw [h.pending, h.claim]; exact hl.claim_in l
  stage_in l := by rw [h.pending, h.stage]; exact hl.stage_in l
  claim_apart l m := by rw [h.pending, h.pending, h.claim, h.claim]; exact hl.claim_apart l m
  stage_apart l m := by rw [h.pending, h.pending, h.stage, h.stage]; exact hl.stage_apart l m
  claim_clear l e := by
    rw [h.pending, h.resident, h.reservedBy, h.claim]; intro hp he
    rw [h.region he]; exact hl.claim_clear l e hp he
  victim l v := by
    rw [h.pending, h.state, h.victims, h.resident, h.reservedBy]; intro hp hs hv
    have hvictim := hl.victim l v hp hs hv
    rw [h.ready hvictim.1]; exact hvictim
  victims_nodup l := by rw [h.pending, h.victims]; exact hl.victims_nodup l
  reserved e l := by
    rw [h.resident, h.reservedBy, h.pending, h.state, h.victims]; exact hl.reserved e l

theorem Layout.resident_of_find (hl : Layout p s) {k e} (h : s.entries.find? k = some e) :
    s.Resident p e := by
  rw [State.Resident, hl.entry_key k e h]; exact h

theorem Layout.pending_of_find (hl : Layout p s) {k l} (h : s.pending.find? k = some l) :
    s.Pending p l := by
  rw [State.Pending, hl.result, hl.load_key k l h]; exact h

/-! ## Descriptors -/

def Call.desc : Call → DescId
  | .admission d | .coalesced d _ | .reading d _ _ | .readFailed d _ _ _ | .copying d _ _ => d

/-- Everything the cache holds was loaded for its key's canonical descriptor. -/
structure Canonical (p : Params) (s : State) : Prop where
  entry : ∀ e, s.Resident p e → s.canonical.find? (s.keyOf p e) = some (s.heap e).desc
  load : ∀ l, s.Pending p l → s.canonical.find? (s.keyOf p l) = some (s.heap l).desc
  call : ∀ t c, s.calls.find? t = some c →
    s.canonical.find? (p.descriptor c.desc).key = some c.desc

/-! ## Retention order -/

/-- `by_recency_` lists entries, in `lru_less` order. -/
structure Retention (p : Params) (s : State) : Prop where
  resident : ∀ e ∈ s.byRecency, s.Resident p e
  sorted : s.byRecency.Pairwise fun a b => lruLess p (s.heap a) (s.heap b) = true

/-! ## Counters -/

/-- The byte counters are the sums they stand for. -/
structure Counters (p : Params) (s : State) : Prop where
  resident : s.stats.residentBytes =
    s.entries.sumBy fun _ e => if (s.heap e).ready then s.bytesOf p e else 0
  reserved : s.stats.reservedBytes = s.pending.sumBy fun _ l => s.bytesOf p l
  staging : s.stats.stagingUsedBytes = s.pending.sumBy fun _ l => s.bytesOf p l
  active : s.stats.activeLoads = s.pending.sumBy fun _ _ => 1

/-! ## Pins and references -/

def State.leaseCount (s : State) (e : EntryId) : Nat :=
  s.leases.sumBy fun _ l => if l.entry = e then 1 else 0

/-- A finished load that someone still refers to keeps a completion pin. -/
def State.Completing (s : State) (l : LoadId) : Prop :=
  (s.loads l).state = .ready ∧ 0 < (s.loads l).useCount

def State.completionPin (s : State) (l : LoadId) : Nat :=
  if (s.loads l).state = .ready ∧ 0 < (s.loads l).useCount then 1 else 0

/-- Pins are leases and completion pins, and only ready entries have any. -/
structure Pins (p : Params) (s : State) : Prop where
  count : ∀ e, (s.heap e).pins = s.leaseCount e + s.completionPin e
  lease : ∀ i l, s.leases.find? i = some l →
    s.Resident p l.entry ∧ (s.heap l.entry).ready = true ∧ (s.heap l.entry).desc = l.desc
  lease_fresh : ∀ i l, s.leases.find? i = some l → i < s.nextLease
  completing : ∀ l, s.Completing l → s.Resident p l ∧ (s.heap l).ready = true

def State.holders (s : State) (l : LoadId) : Nat :=
  s.calls.sumBy fun _ c => if c.load? = some l then 1 else 0

/-- References are the calls that hold one and the map's own. -/
def Uses (s : State) : Prop :=
  ∀ l, (s.loads l).useCount = s.holders l + s.pending.sumBy fun _ m => if m = l then 1 else 0

/-! ## Threads inside `acquire` -/

def CallOk (p : Params) (s : State) : Call → Prop
  | .admission d =>
    (p.descriptor d).bytes ≤ p.config.capacityBytes ∧ (p.descriptor d).bytes ≤ p.config.stagingBytes
  | .coalesced d l =>
    (s.heap l).desc = d ∧ l < s.next ∧
      (s.Pending p l ∨ (s.loads l).state = .ready ∧ (s.loads l).error = none ∨
        (s.loads l).state = .failed ∧ (s.loads l).error.isSome)
  | .reading d l done =>
    s.Pending p l ∧ (s.loads l).state = .loading ∧ (s.heap l).desc = d ∧
      done ≤ (p.descriptor d).extents.length ∧
      s.staging.read (s.loads l).stagingOffset (bytesBefore p d done) =
        ((p.descriptor d).extents.take done).flatMap (extentBytes p)
  | .readFailed d l _ _ => s.Pending p l ∧ (s.loads l).state = .loading ∧ (s.heap l).desc = d
  | .copying d l done =>
    s.Pending p l ∧ (s.loads l).state = .copying ∧ (s.heap l).desc = d ∧
      done ≤ (p.descriptor d).bytes ∧
      s.staging.read (s.loads l).stagingOffset (p.descriptor d).bytes = payload p d ∧
      s.arena.read (s.loads l).arenaOffset done = (payload p d).take done

/-- Every thread inside `acquire` is in order, and a load has one owner. -/
structure Calls (p : Params) (s : State) : Prop where
  ok : ∀ t c, s.calls.find? t = some c → CallOk p s c
  owner : ∀ t t' c c' l, s.calls.find? t = some c → s.calls.find? t' = some c' →
    c.owned? = some l → c'.owned? = some l → t = t'
  owned : ∀ l, s.Pending p l → ∃ t c, s.calls.find? t = some c ∧ c.owned? = some l

def Contents (p : Params) (s : State) : Prop :=
  ∀ e, s.Resident p e → (s.heap e).ready = true →
    s.arena.read (s.heap e).arenaOffset (s.bytesOf p e) = payload p (s.heap e).desc

/-- **The cache's invariant.** -/
structure Inv (p : Params) (s : State) : Prop where
  layout : Layout p s
  canonical : Canonical p s
  retention : Retention p s
  counters : Counters p s
  pins : Pins p s
  uses : Uses s
  calls : Calls p s
  contents : Contents p s

/-! ## Steps that only reorder -/

/-- The step changed recency data, statistics or the canonical table only. -/
structure Quiet (s t : State) : Prop extends SameLayout s t where
  canonical : ∀ k d, s.canonical.find? k = some d → t.canonical.find? k = some d
  pins : ∀ e, (t.heap e).pins = (s.heap e).pins
  useCount : ∀ l, (t.loads l).useCount = (s.loads l).useCount
  leases : t.leases = s.leases
  nextLease : t.nextLease = s.nextLease
  calls : t.calls = s.calls
  staging : t.staging = s.staging
  arena : t.arena = s.arena
  residentBytes : t.stats.residentBytes = s.stats.residentBytes
  reservedBytes : t.stats.reservedBytes = s.stats.reservedBytes
  stagingUsedBytes : t.stats.stagingUsedBytes = s.stats.stagingUsedBytes
  activeLoads : t.stats.activeLoads = s.stats.activeLoads

namespace Quiet

theorem refl (s : State) : Quiet s s :=
  ⟨.refl s, fun _ _ h => h, fun _ => rfl, fun _ => rfl, rfl, rfl, rfl, rfl, rfl, rfl, rfl, rfl, rfl⟩

theorem trans {u} (h : Quiet s t) (h' : Quiet t u) : Quiet s u where
  toSameLayout := h.toSameLayout.trans h'.toSameLayout
  canonical k d hk := h'.canonical k d (h.canonical k d hk)
  pins e := (h'.pins e).trans (h.pins e)
  useCount l := (h'.useCount l).trans (h.useCount l)
  leases := h'.leases.trans h.leases
  nextLease := h'.nextLease.trans h.nextLease
  calls := h'.calls.trans h.calls
  staging := h'.staging.trans h.staging
  arena := h'.arena.trans h.arena
  residentBytes := h'.residentBytes.trans h.residentBytes
  reservedBytes := h'.reservedBytes.trans h.reservedBytes
  stagingUsedBytes := h'.stagingUsedBytes.trans h.stagingUsedBytes
  activeLoads := h'.activeLoads.trans h.activeLoads

end Quiet

theorem Canonical.transfer (hc : Canonical p s) (h : SameLayout s t)
    (hmono : ∀ k d, s.canonical.find? k = some d → t.canonical.find? k = some d)
    (hcalls : ∀ i c, t.calls.find? i = some c →
      t.canonical.find? (p.descriptor c.desc).key = some c.desc) : Canonical p t where
  entry e he := by
    rw [h.keyOf, h.desc]; exact hmono _ _ (hc.entry e ((h.resident e).mp he))
  load l hl := by
    rw [h.keyOf, h.desc]; exact hmono _ _ (hc.load l ((h.pending l).mp hl))
  call := hcalls

theorem Retention.transfer (hr : Retention p s) (h : SameLayout s t)
    (horder : t.byRecency = s.byRecency)
    (hless : ∀ a b, lruLess p (t.heap a) (t.heap b) = lruLess p (s.heap a) (s.heap b)) :
    Retention p t where
  resident e he := (h.resident e).mpr (hr.resident e (horder ▸ he))
  sorted := by rw [horder]; simpa only [hless] using hr.sorted

theorem Counters.transfer (hc : Counters p s) (h : SameLayout s t)
    (hresident : t.stats.residentBytes = s.stats.residentBytes)
    (hreserved : t.stats.reservedBytes = s.stats.reservedBytes)
    (hstaging : t.stats.stagingUsedBytes = s.stats.stagingUsedBytes)
    (hactive : t.stats.activeLoads = s.stats.activeLoads) : Counters p t where
  resident := by
    rw [hresident, hc.resident, h.entries]
    exact OrdMap.sumBy_congr fun k e hk => by rw [h.ready hk, h.bytesOf]
  reserved := by simp only [hreserved, h.pendingMap, h.bytesOf]; exact hc.reserved
  staging := by simp only [hstaging, h.pendingMap, h.bytesOf]; exact hc.staging
  active := by simp only [hactive, h.pendingMap]; exact hc.active

/-- Two states agree on a load as far as its callers can tell. -/
structure SameLoad (p : Params) (s t : State) (l : LoadId) : Prop where
  desc : (t.heap l).desc = (s.heap l).desc
  pending : t.Pending p l ↔ s.Pending p l
  state : (t.loads l).state = (s.loads l).state
  error : (t.loads l).error = (s.loads l).error
  stagingOffset : (t.loads l).stagingOffset = (s.loads l).stagingOffset
  claimOffset : (t.loads l).arenaOffset = (s.loads l).arenaOffset

theorem CallOk.congr {c} (hc : CallOk p s c) (hload : ∀ l, c.load? = some l → SameLoad p s t l)
    (hnext : s.next ≤ t.next) (hstaging : t.staging = s.staging) (harena : t.arena = s.arena) :
    CallOk p t c := by
  cases c with
  | admission d => exact hc
  | coalesced d l =>
    have h := hload l rfl
    obtain ⟨hd, hfresh, hphase⟩ := hc
    refine ⟨h.desc.trans hd, lt_of_lt_of_le hfresh hnext, ?_⟩
    rw [h.pending, h.state, h.error]
    exact hphase
  | reading d l done =>
    have h := hload l rfl
    simpa only [CallOk, h.desc, h.pending, h.state, h.stagingOffset, hstaging] using hc
  | readFailed d l done error =>
    have h := hload l rfl
    simpa only [CallOk, h.desc, h.pending, h.state] using hc
  | copying d l done =>
    have h := hload l rfl
    simpa only [CallOk, h.desc, h.pending, h.state, h.stagingOffset, h.claimOffset, hstaging,
      harena] using hc

theorem SameLayout.load (h : SameLayout s t) (l : LoadId) : SameLoad p s t l :=
  ⟨h.desc l, h.pending l, h.state l, h.error l, h.stagingOffset l, h.claimOffset l⟩

theorem CallOk.transfer (h : SameLayout s t) (hstaging : t.staging = s.staging)
    (harena : t.arena = s.arena) {c} (hc : CallOk p s c) : CallOk p t c :=
  hc.congr (fun l _ => h.load l) h.next.ge hstaging harena

theorem Contents.transfer (hc : Contents p s) (h : SameLayout s t) (harena : t.arena = s.arena) :
    Contents p t := by
  intro e he hready
  rw [h.resident] at he
  rw [h.arenaOffset he, h.bytesOf, h.desc, harena]
  exact hc e he (h.ready he ▸ hready)

theorem Pins.transfer (hp : Pins p s) (h : SameLayout s t)
    (hpins : ∀ e, (t.heap e).pins = (s.heap e).pins)
    (huse : ∀ l, (t.loads l).useCount = (s.loads l).useCount)
    (hleases : t.leases = s.leases) (hnext : t.nextLease = s.nextLease) : Pins p t where
  count e := by
    simp only [hpins, State.leaseCount, hleases, State.completionPin, h.state, huse]
    exact hp.count e
  lease i l := by rw [hleases, h.leased]; exact hp.lease i l
  lease_fresh i l := by rw [hleases, hnext]; exact hp.lease_fresh i l
  completing l := by
    rw [State.Completing, h.state, huse, h.served]; exact hp.completing l

theorem Calls.transfer (hc : Calls p s) (h : SameLayout s t) (hcalls : t.calls = s.calls)
    (hstaging : t.staging = s.staging) (harena : t.arena = s.arena) : Calls p t where
  ok i c hi := (hc.ok i c (hcalls ▸ hi)).transfer h hstaging harena
  owner := by rw [hcalls]; exact hc.owner
  owned l hl := by rw [hcalls]; exact hc.owned l ((h.pending l).mp hl)

theorem Inv.quiet (hi : Inv p s) (h : Quiet s t) (hr : Retention p t) : Inv p t where
  layout := hi.layout.transfer h.toSameLayout
  canonical := hi.canonical.transfer h.toSameLayout h.canonical fun i c hic =>
    h.canonical _ _ (hi.canonical.call i c (h.calls ▸ hic))
  retention := hr
  counters := hi.counters.transfer h.toSameLayout h.residentBytes h.reservedBytes
    h.stagingUsedBytes h.activeLoads
  pins := hi.pins.transfer h.toSameLayout h.pins h.useCount h.leases h.nextLease
  uses l := by
    rw [h.useCount, State.holders, h.calls, h.pendingMap]; exact hi.uses l
  calls := hi.calls.transfer h.toSameLayout h.calls h.staging h.arena
  contents := hi.contents.transfer h.toSameLayout h.arena

theorem Inv.quiet_of_order (hi : Inv p s) (h : Quiet s t) (horder : t.byRecency = s.byRecency)
    (hheap : t.heap = s.heap) : Inv p t :=
  hi.quiet h (hi.retention.transfer h.toSameLayout horder fun a b => by rw [hheap])

end ExpertStreaming.RamCache
