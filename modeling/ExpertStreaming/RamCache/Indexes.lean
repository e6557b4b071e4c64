import ExpertStreaming.RamCache.Accounting

/-! # The RAM expert cache: agreement of the indexes

`entries_`, `by_offset_` and `by_recency_` list the same entries, and whoever will
touch a key has its observation on record, as long as no `clear` drops the
observations of a caller that is still waiting for admission. `Coherent` is the
part of the invariant that needs this; it excludes every internal exception.
-/
namespace ExpertStreaming.RamCache
open Lib

variable {p : Params} {s u : State} {t : Tid} {d : DescId} {l : LoadId} {a : Action}
  {r : State × Outcome}

def Call.fills : Call → Bool
  | .coalesced _ _ => false
  | .admission _ | .reading _ _ _ | .readFailed _ _ _ _ | .copying _ _ _ => true

def Call.error? : Call → Option CacheError
  | .readFailed _ _ _ error => some error
  | .admission _ | .coalesced _ _ | .reading _ _ _ | .copying _ _ _ => none

def State.Observes (s : State) (k : ExpertKey) : Prop := (s.observations.find? k).isSome

def CallCoherent (p : Params) (s : State) (c : Call) : Prop :=
  (p.config.frequencyRetention = true → c.fills = true → s.Observes (p.descriptor c.desc).key) ∧
    ∀ error, c.error? = some error → error.isInternal = false

structure Coherent (p : Params) (s : State) : Prop where
  listed : ∀ e, s.Resident p e → e ∈ s.byRecency
  unready : ∀ e, s.Resident p e → (s.heap e).ready = false → s.Pending p e
  absent : ∀ l, s.Pending p l → (s.loads l).state = .loading →
    s.entries.find? (s.keyOf p l) = none
  observed : p.config.frequencyRetention = true → ∀ e, s.Resident p e → s.Observes (s.keyOf p e)
  error : ∀ l error, (s.loads l).error = some error → error.isInternal = false
  call : ∀ t c, s.calls.find? t = some c → CallCoherent p s c

/-! ## Steps that leave the indexes alone -/

/-- Two states agree on what the indexes refer to. -/
structure SameIndex (s t : State) : Prop where
  entries : t.entries = s.entries
  pendingMap : t.pending = s.pending
  desc : ∀ e, (t.heap e).desc = (s.heap e).desc
  ready : ∀ {k e}, s.entries.find? k = some e → (t.heap e).ready = (s.heap e).ready
  result : ∀ l, (t.loads l).result = (s.loads l).result
  state : ∀ l, (t.loads l).state = (s.loads l).state
  error : ∀ l, (t.loads l).error = (s.loads l).error

theorem SameLayout.index (h : SameLayout s u) : SameIndex s u :=
  ⟨h.entries, h.pendingMap, h.desc, h.ready, h.result, h.state, h.error⟩

theorem Replanned.index {offset victims} (h : Replanned s u l offset victims) : SameIndex s u :=
  ⟨h.entries, h.pendingMap, fun e => by rw [h.entry], fun _ => by rw [h.entry], h.result, h.state,
    h.error⟩

theorem modifyStats_index (s : State) (f : CacheStats → CacheStats) :
    SameIndex s (s.modifyStats f) :=
  ⟨rfl, rfl, fun _ => rfl, fun _ => rfl, fun _ => rfl, fun _ => rfl, fun _ => rfl⟩

theorem SameIndex.trans {w} (h : SameIndex s u) (h' : SameIndex u w) : SameIndex s w where
  entries := h'.entries.trans h.entries
  pendingMap := h'.pendingMap.trans h.pendingMap
  desc e := (h'.desc e).trans (h.desc e)
  ready hk := (h'.ready (h.entries ▸ hk)).trans (h.ready hk)
  result l := (h'.result l).trans (h.result l)
  state l := (h'.state l).trans (h.state l)
  error l := (h'.error l).trans (h.error l)

namespace SameIndex
variable (h : SameIndex s u)
include h

theorem keyOf (e : EntryId) : u.keyOf p e = s.keyOf p e := by simp only [State.keyOf, h.desc]

theorem resident (e : EntryId) : u.Resident p e ↔ s.Resident p e := by
  simp only [State.Resident, h.keyOf, h.entries]

theorem pending (l : LoadId) : u.Pending p l ↔ s.Pending p l := by
  simp only [State.Pending, h.keyOf, h.pendingMap, h.result]

end SameIndex

theorem Coherent.transfer (hk : Coherent p s) (h : SameIndex s u)
    (hlist : ∀ e ∈ s.byRecency, e ∈ u.byRecency) (hobs : ∀ k, s.Observes k → u.Observes k)
    (hcalls : ∀ t c, u.calls.find? t = some c → CallCoherent p u c) : Coherent p u where
  listed e he := hlist e (hk.listed e ((h.resident e).mp he))
  unready e he hr := by
    rw [h.resident] at he
    exact (h.pending e).mpr (hk.unready e he (h.ready he ▸ hr))
  absent l hp hs := by
    rw [h.entries, h.keyOf]; exact hk.absent l ((h.pending l).mp hp) (h.state l ▸ hs)
  observed hfr e he := by
    rw [h.keyOf]; exact hobs _ (hk.observed hfr e ((h.resident e).mp he))
  error l error he := hk.error l error (h.error l ▸ he)
  call := hcalls

theorem CallCoherent.mono {c} (hc : CallCoherent p s c) (hobs : ∀ k, s.Observes k → u.Observes k) :
    CallCoherent p u c :=
  ⟨fun hfr hf => hobs _ (hc.1 hfr hf), hc.2⟩

theorem Coherent.calls_of (hk : Coherent p s) (hobs : ∀ k, s.Observes k → u.Observes k)
    (hcalls : ∀ i c, u.calls.find? i = some c → s.calls.find? i = some c ∨ CallCoherent p u c)
    (i : Tid) (c : Call) (hc : u.calls.find? i = some c) : CallCoherent p u c := by
  rcases hcalls i c hc with hold | hnew
  · exact (hk.call i c hold).mono hobs
  · exact hnew

theorem Coherent.same (hk : Coherent p s) (h : SameIndex s u) (hlist : u.byRecency = s.byRecency)
    (hobs : u.observations = s.observations)
    (hcalls : ∀ i c, u.calls.find? i = some c → s.calls.find? i = some c ∨ CallCoherent p u c) :
    Coherent p u := by
  have hmono : ∀ k, s.Observes k → u.Observes k := by
    intro k hs; rw [State.Observes, hobs]; exact hs
  exact hk.transfer h (fun e he => hlist ▸ he) hmono (hk.calls_of hmono hcalls)

theorem Coherent.count (hk : Coherent p s) (f : CacheStats → CacheStats) :
    Coherent p (s.modifyStats f) :=
  hk.same (modifyStats_index s f) rfl rfl fun _ _ hc => .inl hc

theorem Coherent.leave (hk : Coherent p s) (t : Tid) : Coherent p (s.leave t) :=
  hk.same (leave_sameOrder s t).index rfl rfl fun _ _ hc => .inl (calls_leave hc).2

theorem Coherent.reorders (hk : Coherent p s) (h : Reorders p s u)
    (hperm : u.byRecency.Perm s.byRecency) : Coherent p u :=
  hk.transfer h.quiet.index (fun _ he => hperm.mem_iff.mpr he) h.observed fun i c hc =>
    (hk.call i c (h.quiet.calls ▸ hc)).mono h.observed

/-! ## Nothing internal is thrown -/

theorem Touched.ok {e res} (h : Touched p s e res) (hk : Coherent p s) (he : s.Resident p e) :
    res.2 = none := by
  by_contra hthrow
  rcases h.throws hthrow with hout | ⟨hfr, hnone⟩
  · exact hout (hk.listed e he)
  · have hobs := hk.observed hfr e he
    rw [State.Observes, hnone] at hobs
    cases hobs

theorem Observed.ok {k res} (h : Observed p s k res) (hk : Coherent p s) (hr : Retention p s) :
    res.2 = none := by
  by_contra hthrow
  obtain ⟨hfr, e, he, hnone⟩ := h.throws hthrow
  have hobs := hk.observed hfr e (hr.resident e he)
  rw [State.Observes, hnone] at hobs
  cases hobs

/-- A step of a coherent state: coherent again, and no internal exception. -/
structure Sound (p : Params) (r : State × Outcome) : Prop where
  coherent : Coherent p r.1
  external : ∀ error, r.2 = .threw error → error.isInternal = false

theorem Sound.quiet {o} (h : Coherent p u) (ho : ∀ error, o ≠ .threw error) :
    Sound p (u, o) := ⟨h, fun error he => absurd he (ho error)⟩

theorem Hit.sound {e} (h : Hit p s e d r) (hk : Coherent p s) (he : s.Resident p e) :
    Sound p r := by
  cases h with
  | threw touched => cases touched.ok hk he
  | @leased u touched =>
    refine .quiet ?_ fun error h => by cases h
    have hu := hk.reorders touched.reorders (touched.perm rfl)
    have hgrant := grant_sameOrder (u.modifyStats fun x => { x with hits := x.hits + 1 }) e d
    exact hu.same ((modifyStats_index u _).trans hgrant.index) rfl rfl fun i c hc => .inl hc

/-! ## The admission loop -/

theorem Coherent.absent_of_misses (hk : Coherent p s) (hi : Inv p s) (hmiss : s.Misses p d)
    (habsent : s.pending.find? (p.descriptor d).key = none) :
    s.entries.find? (p.descriptor d).key = none := by
  cases hf : s.entries.find? (p.descriptor d).key with
  | none => rfl
  | some e =>
    have hkey := hi.layout.entry_key _ _ hf
    have hres : s.Resident p e := hi.layout.resident_of_find hf
    have hp := hk.unready e hres (hmiss e hf)
    rw [State.Pending, hi.layout.result, hkey, habsent] at hp
    cases hp

theorem Admitted.coherent {offset stagingOffset victims}
    (h : Admitted p s u t d offset victims stagingOffset) (hk : Coherent p s) (hi : Inv p s)
    (habsent : s.pending.find? (p.descriptor d).key = none)
    (hentries : s.entries.find? (p.descriptor d).key = none)
    (hobs : p.config.frequencyRetention = true → s.Observes (p.descriptor d).key) :
    Coherent p u where
  listed e he := by
    rw [h.byRecency]; exact hk.listed e ((h.resident hi.layout e).mp he).1
  unready e he hr := by
    obtain ⟨hres, hne⟩ := (h.resident hi.layout e).mp he
    rw [h.entry e hne] at hr
    exact (h.pending hi.layout habsent e).mpr (.inl (hk.unready e hres hr))
  absent m hm hs := by
    rw [h.entries]
    by_cases hne : m = s.next
    · rw [hne, h.keyOf_self]; exact hentries
    · rw [h.keyOf hne]
      have hold := ((h.pending hi.layout habsent m).mp hm).resolve_right hne
      rw [h.load m hne] at hs
      exact hk.absent m hold hs
  observed hfr e he := by
    obtain ⟨hres, hne⟩ := (h.resident hi.layout e).mp he
    rw [State.Observes, h.observations, h.keyOf hne]
    exact hk.observed hfr e hres
  error m error he := by
    by_cases hne : m = s.next
    · rw [hne, h.load_self] at he; cases he
    · rw [h.load m hne] at he; exact hk.error m error he
  call i c hc := by
    have hmono : ∀ k, s.Observes k → u.Observes k := by
      intro k hs; rw [State.Observes, h.observations]; exact hs
    rw [h.calls] at hc
    rcases calls_setCall hc with ⟨_, rfl⟩ | ⟨_, hold⟩
    · exact ⟨fun hfr _ => hmono _ (hobs hfr), fun error he => by cases he⟩
    · exact (hk.call i c hold).mono hmono

theorem Attempted.sound (h : Attempted p s t d r) (hk : Coherent p s) (hi : Inv p s)
    (he : Entering p s t d)
    (hobs : p.config.frequencyRetention = true → s.Observes (p.descriptor d).key) :
    Sound p r := by
  cases h with
  | hit found ready hit => exact hit.sound (hk.leave t) (hi.desc_of_find he.canonical found).1
  | @coalesced l misses found =>
    refine .quiet ?_ fun error h => by cases h
    have hload := modifyLoad_uses_sameOrder (s.modifyStats fun x => { x with
      coalescedLoads := x.coalescedLoads + 1 }) l (· + 1)
    have hcall := hload.trans (setCall_sameOrder _ t (.coalesced d l))
    refine hk.same ((modifyStats_index s _).trans hcall.index) rfl rfl fun i c hc => ?_
    rcases calls_setCall hc with ⟨_, rfl⟩ | ⟨_, hold⟩
    · exact .inr ⟨fun _ hf => (by cases hf), fun error he => by cases he⟩
    · exact .inl hold
  | noRoom misses quiet full =>
    refine ⟨?_, fun error he => by cases he; rfl⟩
    dsimp only
    exact (hk.count _).leave t
  | waits misses busy =>
    refine .quiet ?_ fun error h => by cases h
    have hcall := setCall_sameOrder (s.modifyStats fun x => { x with
      stagingWaits := x.stagingWaits + 1 }) t (.admission d)
    refine hk.same ((modifyStats_index s _).trans hcall.index) rfl rfl fun i c hc => ?_
    rcases calls_setCall hc with ⟨_, rfl⟩ | ⟨_, hold⟩
    · exact .inr ⟨fun hfr _ => hobs hfr, fun error he => by cases he⟩
    · exact .inl hold
  | mismatch misses bad => exact ⟨hk.leave t, fun error he => by cases he; rfl⟩
  | admitted misses admissible sources =>
    refine .quiet ?_ fun error h => by cases h
    exact (reserve_spec admissible.absent).coherent hk hi admissible.absent
      (hk.absent_of_misses hi misses admissible.absent) hobs

theorem Coherent.register (hk : Coherent p s) (d : DescId) : Coherent p (s.register p d) :=
  hk.same (register_quiet p s d).index rfl rfl fun _ _ hc => .inl hc

theorem Acquired.sound {value} (h : Acquired p s t value r) (hk : Coherent p s) (hi : Inv p s) :
    Sound p r := by
  cases h with
  | null => exact ⟨hk, fun error he => by cases he; rfl⟩
  | tooLarge large =>
    refine ⟨?_, fun error he => by cases he; rfl⟩
    dsimp only
    exact hk.count _
  | reused found other => exact ⟨hk, fun error he => by cases he; rfl⟩
  | @observeThrew d u error observed =>
    cases observed.ok (hk.register d) (hi.register d).retention
  | @attempted d u r registered observe entering attempted =>
    have hobs := observe_spec registered.retention (p.descriptor d).key
    rw [observe] at hobs
    exact attempted.sound ((hk.register d).reorders hobs.reorders (hobs.perm rfl))
      (registered.reorders hobs.reorders) entering (hobs.counted rfl)

theorem TryAcquired.sound {value} (h : TryAcquired p s value r) (hk : Coherent p s) (hi : Inv p s) :
    Sound p r := by
  cases h with
  | null => exact ⟨hk, fun error he => by cases he; rfl⟩
  | reused found other => exact ⟨hk, fun error he => by cases he; rfl⟩
  | empty misses => exact .quiet hk fun error h => by cases h
  | observeThrew observed => cases observed.ok hk hi.retention
  | @hit d u e r same found ready observed hit =>
    have hres : s.Resident p e := hi.layout.resident_of_find found
    exact hit.sound (hk.reorders observed.reorders (observed.perm rfl))
      ((observed.reorders.quiet.resident e).mpr hres)

/-! ## The end of a load -/

theorem Finished.coherent {i} (h : Finished p s u i l) (hk : Coherent p s) (hi : Inv p s)
    (hp : s.Pending p l) (hobs : u.observations = s.observations)
    (hself : u.Resident p l → (u.heap l).ready = true)
    (herror : ∀ error, (u.loads l).error = some error → error.isInternal = false) :
    Coherent p u where
  listed e he := by rw [h.byRecency]; exact hk.listed e ((h.resident e).mp he)
  unready e he hr := by
    have hel : e ≠ l := by rintro rfl; rw [hself he] at hr; cases hr
    refine (h.pending hi.layout hp e).mpr ⟨?_, hel⟩
    exact hk.unready e ((h.resident e).mp he) (h.ready e hel ▸ hr)
  absent m hm hs := by
    obtain ⟨hms, hml⟩ := (h.pending hi.layout hp m).mp hm
    rw [h.entries, h.keyOf]; exact hk.absent m hms (h.state m hml ▸ hs)
  observed hfr e he := by
    rw [State.Observes, hobs, h.keyOf]; exact hk.observed hfr e ((h.resident e).mp he)
  error m error he := by
    by_cases hml : m = l
    · exact herror error (hml ▸ he)
    · exact hk.error m error (h.error m hml ▸ he)
  call j c hc := by
    refine (hk.call j c (h.calls_find hc).2).mono fun k hs => ?_
    rw [State.Observes, hobs]; exact hs

theorem Coherent.failLoad (hk : Coherent p s) (hi : Inv p s) (hp : s.Pending p l)
    (hs : (s.loads l).state = .loading) {error} (hext : error.isInternal = false) :
    Sound p (s.failLoad p t l error) := by
  have h := failLoad_spec (p := p) hi.layout.result t l error
  refine ⟨?_, fun error' he => by cases he; exact hext⟩
  refine h.coherent hk hi hp h.observations (fun hres => ?_) fun error' he => ?_
  · -- a load that has not published has no entry in the index
    exact absurd ((h.resident l).mp hres) (hi.layout.loading hp hs).1
  · rw [h.failed.2] at he; cases he; exact hext

theorem Settled.coherent {w} (h : Settled p s l w) (hk : Coherent p s) : Coherent p w := by
  cases h with
  | kept => exact hk
  | moved => exact hk.same (replan_spec s l _ _).index rfl rfl fun i c hc => .inl hc

theorem Published.coherent (h : Published p s u t d l) (hk : Coherent p s) (hi : Inv p s)
    (hc : s.calls.find? t = some (.reading d l (p.descriptor d).extents.length)) :
    Coherent p u := by
  obtain ⟨hp, hs, hd, -⟩ := hi.calls.ok t _ hc
  have hmono : ∀ k, s.Observes k → u.Observes k := by
    intro k hs; rw [State.Observes, h.observations]; exact hs
  have hobs : p.config.frequencyRetention = true → s.Observes (s.keyOf p l) := by
    intro hfr
    rw [State.keyOf, hd]; exact (hk.call t _ hc).1 hfr rfl
  refine ⟨?_, ?_, ?_, ?_, ?_, ?_⟩
  · intro e he
    rw [h.order.mem_iff, List.mem_cons, List.mem_filter]
    rcases h.resident_cases he with hel | ⟨_, hr, hv⟩
    · exact .inl hel
    · exact .inr ⟨hk.listed e hr, by simpa using hv⟩
  · intro e he hr
    rcases h.resident_cases he with rfl | ⟨hne, hres, _⟩
    · exact (h.pending e).mpr hp
    · rw [h.heap_of_ne hne] at hr
      exact (h.pending e).mpr (hk.unready e hres hr)
  · intro m hm hms
    have hml : m ≠ l := by rintro rfl; rw [h.load_self] at hms; cases hms
    rw [h.load_of_ne hml] at hms
    have hpm := (h.pending m).mp hm
    have hnone := hk.absent m hpm hms
    cases hf : u.entries.find? (u.keyOf p m) with
    | none => rfl
    | some e =>
      have hkey := h.indexed.entry_key _ _ hf
      have hres : u.Resident p e := by rw [State.Resident, hkey]; exact hf
      rw [h.keyOf, h.keyOf] at hkey
      rcases h.resident_cases hres with rfl | ⟨_, hr, _⟩
      · -- two loads of one key cannot both be pending
        have hpl := hp
        rw [State.Pending, hi.layout.result] at hpl hpm
        rw [hkey, hpm] at hpl
        exact absurd (Option.some.inj hpl) hml
      · rw [State.Resident, hkey, hnone] at hr; cases hr
  · intro hfr e he
    rw [h.keyOf]
    rcases h.resident_cases he with rfl | ⟨_, hr, _⟩
    · exact hmono _ (hobs hfr)
    · exact hmono _ (hk.observed hfr e hr)
  · intro m error he
    rw [h.error] at he; exact hk.error m error he
  · intro i c hci
    rw [h.calls] at hci
    rcases calls_setCall hci with ⟨_, rfl⟩ | ⟨_, hold⟩
    · exact ⟨fun hfr _ => hmono _ ((hk.call t _ hc).1 hfr rfl), fun error he => by cases he⟩
    · exact (hk.call i c hold).mono hmono

theorem Coherent.key_free (hk : Coherent p s) (hi : Inv p s) {n}
    (hc : s.calls.find? t = some (.reading d l n)) :
    s.entries.contains (p.descriptor d).key = false := by
  obtain ⟨hp, hs, hd, -⟩ := hi.calls.ok t _ hc
  have hnone := hk.absent l hp hs
  rw [State.keyOf, hd] at hnone
  rw [OrdMap.contains, hnone]; rfl

theorem ReadFinished.sound (h : ReadFinished p s t d l r) (hk : Coherent p s) (hi : Inv p s)
    (hc : s.calls.find? t = some (.reading d l (p.descriptor d).extents.length)) : Sound p r := by
  obtain ⟨hp, hs, -⟩ := hi.calls.ok t _ hc
  cases h with
  | leasedAway leased =>
    refine (hk.count _).failLoad ?_ hp hs rfl
    exact hi.count rfl rfl rfl rfl
  | duplicate settled found => rw [hk.key_free hi hc] at found; cases found
  | published settled published =>
    refine .quiet ?_ fun error h => by cases h
    exact published.coherent (settled.coherent hk) (settled.inv hi hp hs) (settled.calls ▸ hc)

theorem CopyFinished.sound (h : CopyFinished p s t d l r) (hk : Coherent p s) (hi : Inv p s)
    (hc : s.calls.find? t = some (.copying d l (p.descriptor d).bytes)) : Sound p r := by
  have hp := (hi.calls.ok t _ hc).1
  have hres := (hi.copying_resident hc).1
  cases h with
  | threw touched => cases touched.ok hk hres
  | @leased u touched =>
    have hq := touched.reorders.quiet
    have hu := hi.reorders touched.reorders
    have herror : (u.loads l).error = none := (hq.error l).trans (hi.layout.load_error l hp)
    have hdone := @complete_spec p u l hu.layout.result herror t d
    refine .quiet ?_ fun error h => by cases h
    refine hdone.coherent (hk.reorders touched.reorders (touched.perm rfl)) hu
      ((hq.pending l).mpr hp) hdone.observations (fun _ => hdone.ready_self) fun error he => ?_
    rw [hdone.succeeded.2] at he; cases he

theorem Joined.sound (h : Joined p s t d l r) (hk : Coherent p s) (hi : Inv p s)
    (hc : s.calls.find? t = some (.coalesced d l))
    (hdone : (s.loads l).state = .ready ∨ (s.loads l).state = .failed) : Sound p r := by
  have hdrop : ∀ {w : State}, Coherent p w → Inv p w → Coherent p ((w.leave t).dropLoad l) := by
    intro w hw hiw
    have hd := @dropLoad_spec (w.leave t) l (hiw.layout.result l)
    refine hw.same ((leave_sameOrder w t).trans hd.toSameOrder).index hd.byRecency
      (dropLoad_observations _ l) fun i c hci => ?_
    rw [hd.calls] at hci
    exact .inl (calls_leave hci).2
  cases h with
  | failed found => exact ⟨hdrop hk hi, fun error he => by cases he; exact hk.error l _ found⟩
  | hit none hit =>
    obtain ⟨hres, hready, hd⟩ := hi.joined_ready hc hdone none
    have hsound := hit.sound hk hres
    exact ⟨hdrop hsound.coherent (hit.inv hi hres hready hd), hsound.external⟩

/-! ## Removing entries -/

theorem Retired.coherent {gone} (h : Retired p s u gone) (hk : Coherent p s) :
    Coherent p u := by
  have hheap : u.heap = s.heap := by rw [h.rest]
  have hloads : u.loads = s.loads := by rw [h.rest]
  have hobs : u.observations = s.observations := by rw [h.rest]
  have hkey : ∀ e, u.keyOf p e = s.keyOf p e := by intro e; simp only [State.keyOf, hheap]
  have hpend : ∀ m, u.Pending p m ↔ s.Pending p m := by
    intro m
    simp only [State.Pending, hkey, hloads, show u.pending = s.pending by rw [h.rest]]
  refine ⟨?_, ?_, ?_, ?_, ?_, ?_⟩
  · intro e he
    obtain ⟨hres, hout⟩ := (h.resident e).mp he
    rw [h.byRecency, List.mem_filter]
    exact ⟨hk.listed e hres, by simpa using hout⟩
  · intro e he hr
    rw [hheap] at hr
    exact (hpend e).mpr (hk.unready e ((h.resident e).mp he).1 hr)
  · intro m hm hs
    rw [hloads] at hs
    have hnone := hk.absent m ((hpend m).mp hm) hs
    cases hf : u.entries.find? (u.keyOf p m) with
    | none => rfl
    | some e =>
      have hek := h.indexed.entry_key _ _ hf
      have hres : u.Resident p e := by rw [State.Resident, hek]; exact hf
      have hold := ((h.resident e).mp hres).1
      rw [hkey, hkey] at hek
      rw [State.Resident, hek, hnone] at hold; cases hold
  · intro hfr e he
    rw [State.Observes, hobs, hkey]; exact hk.observed hfr e ((h.resident e).mp he).1
  · intro m error he
    rw [hloads] at he; exact hk.error m error he
  · intro i c hc
    rw [show u.calls = s.calls by rw [h.rest]] at hc
    refine (hk.call i c hc).mono fun k hs => ?_
    rw [State.Observes, hobs]; exact hs

theorem Coherent.emptied (hk : Coherent p s) (hi : Inv p s) (hnopend : ∀ m, ¬ s.Pending p m)
    (hnowait : p.config.frequencyRetention = true → ∀ t d, s.calls.find? t ≠ some (.admission d)) :
    Coherent p s.emptied := by
  have hnone : ∀ e, ¬ s.emptied.Resident p e := by intro e he; cases he
  refine ⟨fun e he => absurd he (hnone e), fun e he => absurd he (hnone e),
    fun m hm => absurd hm (hnopend m), fun _ e he => absurd he (hnone e), hk.error, ?_⟩
  intro i c hc
  refine ⟨fun hfr hf => ?_, (hk.call i c hc).2⟩
  have hok := hi.calls.ok i c hc
  cases c with
  | admission d => exact absurd hc (hnowait hfr i d)
  | coalesced d m => cases hf
  | reading d m n => exact absurd hok.1 (hnopend m)
  | readFailed d m n error => exact absurd hok.1 (hnopend m)
  | copying d m n => exact absurd hok.1 (hnopend m)

/-! ## Steps -/

theorem Coherent.progress {c c'} (hk : Coherent p s) (h : Progress s u t c')
    (hobs : u.observations = s.observations) (hc : s.calls.find? t = some c)
    (hdesc : c'.desc = c.desc) (hfills : c.fills = true)
    (herror : ∀ error, c'.error? = some error → error.isInternal = false) : Coherent p u := by
  refine hk.same h.index h.byRecency hobs fun i c'' hci => ?_
  rw [h.calls] at hci
  rcases calls_setCall hci with ⟨_, rfl⟩ | ⟨_, hold⟩
  · refine .inr ⟨fun hfr _ => ?_, herror⟩
    rw [State.Observes, hobs, hdesc]; exact (hk.call t c hc).1 hfr hfills
  · exact .inl hold

theorem Coherent.addBytesRead (hk : Coherent p s) (d : DescId) (n : Nat) :
    Coherent p (s.addBytesRead p d n) := by
  unfold State.addBytesRead
  exact hk.count _

/-- No `clear` succeeds, with `frequency_retention`, while a caller waits for admission. -/
def Gentle (p : Params) (ev : CacheEvent) : Prop :=
  ev.label = (.clear, .cleared) → p.config.frequencyRetention = true →
    ∀ t d, ev.before.calls.find? t ≠ some (.admission d)

/-- **A gentle step of a coherent state is coherent and throws nothing internal.** -/
theorem Stepped.sound (h : Stepped p s a r) (hk : Coherent p s) (hi : Inv p s)
    (hg : Gentle p ⟨s, (a, r.2), r.1⟩) : Sound p r := by
  cases h with
  | acquire outside acquired => exact acquired.sound hk hi
  | wake call entering attempted =>
    exact attempted.sound hk hi entering fun hfr => (hk.call _ _ call).1 hfr rfl
  | join call done joined => exact joined.sound hk hi call done
  | readExtent call extent =>
    refine .quiet ?_ fun error h => by cases h
    exact hk.progress (stage_write_progress s _ _ _ _) rfl call rfl rfl fun error he => by cases he
  | readThrows call extent short =>
    refine .quiet ?_ fun error h => by cases h
    exact hk.progress (stage_write_progress s _ _ _ _) rfl call rfl rfl
      fun error he => by cases he; rfl
  | finishRead call finished => exact finished.sound (hk.addBytesRead _ _) (hi.addBytesRead _ _) call
  | @readFailed t d l n error call =>
    obtain ⟨hp, hs, -⟩ := hi.calls.ok _ _ call
    exact (hk.addBytesRead d n).failLoad (hi.addBytesRead d n) hp hs ((hk.call _ _ call).2 error rfl)
  | copyByte call more =>
    refine .quiet ?_ fun error h => by cases h
    exact hk.progress (copyByte_progress s _ _ _ _) rfl call rfl rfl fun error he => by cases he
  | finishCopy call finished => exact finished.sound hk hi call
  | tryAcquire acquired => exact acquired.sound hk hi
  | erase key =>
    rcases eraseKey_cases hi key with heq | ⟨e, heq, hretired, -⟩
    · rw [heq]; exact .quiet hk fun error h => by cases h
    · rw [heq]; exact .quiet (hretired.coherent hk) fun error h => by cases h
  | clear =>
    rcases clear_cases p s with heq | heq | ⟨heq, hnopend, -⟩
    · rw [heq]; exact ⟨hk, fun error he => by cases he; rfl⟩
    · rw [heq]; exact ⟨hk, fun error he => by cases he; rfl⟩
    · rw [heq] at hg ⊢
      exact .quiet (hk.emptied hi hnopend (hg rfl)) fun error h => by cases h
  | release found =>
    refine .quiet ?_ fun error h => by cases h
    exact hk.same (release_sameOrder s _ _).index rfl rfl fun i c hc => .inl hc

theorem Coherent.initial (p : Params) (staging arena : Memory UInt8) :
    Coherent p (State.initial staging arena) := by
  refine ⟨?_, ?_, ?_, ?_, ?_, ?_⟩
  · intro e he; cases he
  · intro e he; cases he
  · intro l hl; cases hl
  · intro _ e he; cases he
  · intro l error he; cases he
  · intro t c hc; cases hc

theorem gentle_run {evs s₀} (hinit : Init s₀) (run : Trace (Step p) s₀ evs s)
    (hgentle : ∀ ev ∈ evs, Gentle p ev) :
    (Inv p s ∧ Coherent p s) ∧ ∀ ev ∈ evs, (Inv p ev.before ∧ Coherent p ev.before) ∧
      (Inv p ev.after ∧ Coherent p ev.after) ∧ Step p ev.before ev.label ev.after := by
  obtain ⟨staging, arena, rfl⟩ := hinit
  refine run.invariant_of (I := fun s => Inv p s ∧ Coherent p s) (C := Gentle p) ?_ hgentle
    ⟨Inv.initial p staging arena, Coherent.initial p staging arena⟩
  intro s a s' ⟨hi, hk⟩ hs hg
  have hstep := step_cases hi hs
  exact ⟨hstep.inv hi, (hstep.sound hk hi hg).coherent⟩

/-! ## What coherence says about the three indexes -/

/-- The three indexes list the same entries, once each. -/
structure SameEntries (p : Params) (s : State) : Prop where
  offset : ∀ e, (∃ k, s.entries.find? k = some e) ↔ ∃ o, s.byOffset.find? o = some e
  recency : ∀ e, (∃ k, s.entries.find? k = some e) ↔ e ∈ s.byRecency
  once : s.byRecency.Nodup

theorem Coherent.sameEntries (hk : Coherent p s) (hi : Inv p s) : SameEntries p s where
  offset e := by
    constructor
    · intro ⟨k, hf⟩
      exact ⟨_, (hi.layout.by_offset _ e).mpr ⟨hi.layout.resident_of_find hf, rfl⟩⟩
    · intro ⟨o, ho⟩
      exact ⟨_, ((hi.layout.by_offset o e).mp ho).1⟩
  recency e := by
    constructor
    · intro ⟨k, hf⟩; exact hk.listed e (hi.layout.resident_of_find hf)
    · intro he; exact ⟨_, hi.retention.resident e he⟩
  once := hi.retention.nodup

end ExpertStreaming.RamCache
