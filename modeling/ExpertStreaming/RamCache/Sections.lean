import ExpertStreaming.RamCache.Publication

/-! # The RAM expert cache: what a section can do

One inversion lemma per mutex section: the ways it can end, with the guards that
led there. Whatever is proved about steps later is proved by cases on these.
-/
namespace ExpertStreaming.RamCache
open Lib State

variable {p : Params} {s : State} {t : Tid} {d : DescId} {l : LoadId}

/-! ## Hits -/

/-- A hit throws out of `touch` or grants a lease. -/
inductive Hit (p : Params) (s : State) (e : EntryId) (d : DescId) : State × Outcome → Prop
  | threw {u : State} {error : CacheError} (touched : Touched p s e (u, some error)) :
      Hit p s e d (u, .threw error)
  | leased {u : State} (touched : Touched p s e (u, none)) :
      Hit p s e d ((u.modifyStats fun x => { x with hits := x.hits + 1 }).grant e d,
        .leased u.nextLease)

theorem hit_cases (hr : Retention p s) {e} (he : s.Resident p e) (d : DescId) :
    Hit p s e d (s.hit p e d) := by
  have h := touch_spec hr he false
  unfold hit
  split
  next u error heq => rw [heq] at h; exact .threw h
  next u heq => rw [heq] at h; exact .leased h

/-! ## The admission loop -/

def State.Misses (p : Params) (s : State) (d : DescId) : Prop :=
  ∀ e, s.entries.find? (p.descriptor d).key = some e → (s.heap e).ready = false

/-- One pass through the loop of `acquire`. -/
inductive Attempted (p : Params) (s : State) (t : Tid) (d : DescId) : State × Outcome → Prop
  | hit {e : EntryId} {r : State × Outcome}
      (found : s.entries.find? (p.descriptor d).key = some e) (ready : (s.heap e).ready = true)
      (hit : Hit p (s.leave t) e d r) : Attempted p s t d r
  | coalesced {l : LoadId} (misses : s.Misses p d)
      (found : s.pending.find? (p.descriptor d).key = some l) :
      Attempted p s t d (s.coalesce t d l)
  | noRoom (misses : s.Misses p d) (quiet : s.pending.isEmpty = true)
      (full : ∀ o, 64 ∣ o → ¬ Set.Ico o (o + (p.descriptor d).bytes) ⊆
        (s.arenaView p none).openCells (s.arenaView p none).candidates) :
      Attempted p s t d ((s.modifyStats fun x => { x with
        pinnedCapacityFailures := x.pinnedCapacityFailures + 1 }).leave t,
        .threw .allCandidatesLeased)
  | waits (misses : s.Misses p d) (busy : s.pending.isEmpty = false) :
      Attempted p s t d (s.awaitChange t d)
  | mismatch (misses : s.Misses p d) (bad : sourcesMatch p d = false) :
      Attempted p s t d (s.leave t, .threw .sourceIdentityMismatch)
  | admitted {offset stagingOffset : Nat} {victims : List EntryId} (misses : s.Misses p d)
      (admissible : Admissible p s t d offset victims stagingOffset)
      (sources : sourcesMatch p d = true) :
      Attempted p s t d (s.reserve p t d offset victims stagingOffset, .running)

/-- What a thread in the loop has checked already. -/
structure Entering (p : Params) (s : State) (t : Tid) (d : DescId) : Prop where
  idle : s.Idle t
  canonical : s.canonical.find? (p.descriptor d).key = some d
  capacity : (p.descriptor d).bytes ≤ p.config.capacityBytes
  staging : (p.descriptor d).bytes ≤ p.config.stagingBytes

theorem admit_cases (hi : Inv p s) (he : Entering p s t d) (hmiss : s.Misses p d)
    (habsent : s.pending.find? (p.descriptor d).key = none) :
    Attempted p s t d (s.admitLoad p t d) := by
  unfold admitLoad
  dsimp only
  rcases allocationPlan_spec hi.layout hi.retention (p.descriptor d).bytes_pos none with
    ⟨offset, victims, hplan, hplace⟩ | ⟨hplan, hfull⟩
  · rw [hplan]
    rcases stagingPlan_spec hi.layout he.staging with
      ⟨o, hstage, hroom, hclear⟩ | ⟨hstage, hbusy⟩
    · rw [hstage]
      cases hm : sourcesMatch p d with
      | true =>
        exact .admitted hmiss ⟨he.idle, he.canonical, habsent, hplace, hroom, hclear⟩ hm
      | false => exact .mismatch hmiss hm
    · rw [hstage]
      exact .waits hmiss hbusy
  · rw [hplan]
    cases hq : s.pending.isEmpty with
    | true => exact .noRoom hmiss hq hfull
    | false => exact .waits hmiss hq

theorem attempt_cases (hi : Inv p s) (he : Entering p s t d) :
    Attempted p s t d (s.attempt p t d) := by
  unfold attempt
  dsimp only
  split
  next e hfilter =>
    obtain ⟨hfind, hready⟩ := Option.filter_eq_some_iff.mp hfilter
    have hres : (s.leave t).Resident p e := by
      show s.entries.find? (s.keyOf p e) = some e
      rw [hi.layout.entry_key _ _ hfind]; exact hfind
    have hr : Retention p (s.leave t) := (hi.leave he.idle).retention
    exact .hit hfind hready (hit_cases hr hres d)
  next hnone =>
  have hmiss : s.Misses p d := by
    intro e hfind
    rw [hfind] at hnone
    simpa using hnone
  split
  next l hl => exact .coalesced hmiss hl
  next habsent => exact admit_cases hi he hmiss habsent

/-! ## Entry to `acquire` and `try_acquire` -/

/-- `canonical_descriptors_.emplace(key, value)`. -/
def State.register (p : Params) (s : State) (d : DescId) : State :=
  { s with canonical := s.canonical.emplace (p.descriptor d).key d }

inductive Acquired (p : Params) (s : State) (t : Tid) : Option DescId → State × Outcome → Prop
  | null : Acquired p s t none (s, .threw .nullDescriptor)
  | tooLarge {d : DescId}
      (large : p.config.capacityBytes < (p.descriptor d).bytes ∨
        p.config.stagingBytes < (p.descriptor d).bytes ∨ u64Max < (p.descriptor d).bytes) :
      Acquired p s t (some d) (s.modifyStats fun x => { x with
        rejectedAdmissions := x.rejectedAdmissions + 1 },
        .threw (.componentTooLarge (p.descriptor d).key))
  | reused {d d' : DescId} (found : s.canonical.find? (p.descriptor d).key = some d')
      (other : d' ≠ d) : Acquired p s t (some d) (s, .threw .keyReused)
  | observeThrew {d : DescId} {u : State} {error : CacheError}
      (observed : Observed p (s.register p d) (p.descriptor d).key (u, some error)) :
      Acquired p s t (some d) (u, .threw error)
  | attempted {d : DescId} {u : State} {r : State × Outcome} (registered : Inv p (s.register p d))
      (observe : (s.register p d).observe p (p.descriptor d).key = (u, none))
      (entering : Entering p u t d) (attempted : Attempted p u t d r) :
      Acquired p s t (some d) r

theorem canonical_register (h : (s.canonical.find? (p.descriptor d).key).getD d = d) :
    (s.register p d).canonical.find? (p.descriptor d).key = some d := by
  show (s.canonical.emplace _ _).find? _ = _
  rw [OrdMap.find?_emplace]
  cases hf : s.canonical.find? (p.descriptor d).key with
  | none => exact if_pos ⟨rfl, rfl⟩
  | some d' =>
    rw [hf] at h
    exact (if_neg fun hn => by cases hn.2).trans (congrArg some h)

theorem register_quiet (p : Params) (s : State) (d : DescId) : Quiet s (s.register p d) :=
  { Quiet.refl s with
    canonical := fun k d' hk => by
      show (s.canonical.emplace _ _).find? k = _
      rw [OrdMap.find?_emplace]
      exact (if_neg fun hn => by rw [hn.1, hn.2] at hk; cases hk).trans hk }

theorem Inv.register (hi : Inv p s) (d : DescId) : Inv p (s.register p d) :=
  hi.quiet_of_order (register_quiet p s d) rfl rfl

theorem Inv.reorders {u} (hi : Inv p s) (h : Reorders p s u) : Inv p u :=
  hi.quiet h.quiet h.retention

theorem acquire_cases (hi : Inv p s) (hout : s.calls.find? t = none) (value : Option DescId) :
    Acquired p s t value (s.acquire p t value) := by
  unfold acquire
  split
  · exact .null
  next d =>
  dsimp only
  split
  next hlarge => exact .tooLarge hlarge
  next hfits =>
  split
  next hother =>
    cases hf : s.canonical.find? (p.descriptor d).key with
    | none => rw [hf] at hother; exact absurd rfl hother
    | some d' => rw [hf] at hother; exact .reused hf hother
  next hsame =>
  simp only [not_or, not_lt] at hfits
  have hreg := hi.register d
  have hobs := observe_spec hreg.retention (p.descriptor d).key
  split
  next u error heq => exact .observeThrew (heq ▸ hobs)
  next u heq =>
  replace heq : (s.register p d).observe p (p.descriptor d).key = (u, none) := heq
  rw [heq] at hobs
  have hu := hreg.reorders hobs.reorders
  have hentering : Entering p u t d := by
    refine ⟨?_, ?_, hfits.1, hfits.2.1⟩
    · intro c hc
      rw [hobs.reorders.quiet.calls] at hc
      rw [show (s.register p d).calls.find? t = none from hout] at hc
      cases hc
    · exact hobs.reorders.quiet.canonical _ _ (canonical_register (not_not.mp hsame))
  exact .attempted hreg heq hentering (attempt_cases hu hentering)

inductive TryAcquired (p : Params) (s : State) : Option DescId → State × Outcome → Prop
  | null : TryAcquired p s none (s, .threw .nullDescriptor)
  | reused {d d' : DescId} (found : s.canonical.find? (p.descriptor d).key = some d')
      (other : d' ≠ d) : TryAcquired p s (some d) (s, .threw .keyReused)
  | empty {d : DescId} (misses : s.Misses p d) : TryAcquired p s (some d) (s, .empty)
  | observeThrew {d : DescId} {u : State} {error : CacheError}
      (observed : Observed p s (p.descriptor d).key (u, some error)) :
      TryAcquired p s (some d) (u, .threw error)
  | hit {d : DescId} {u : State} {e : EntryId} {r : State × Outcome}
      (same : (s.canonical.find? (p.descriptor d).key).getD d = d)
      (found : s.entries.find? (p.descriptor d).key = some e) (ready : (s.heap e).ready = true)
      (observed : Observed p s (p.descriptor d).key (u, none)) (hit : Hit p u e d r) :
      TryAcquired p s (some d) r

theorem tryAcquire_cases (hi : Inv p s) (value : Option DescId) :
    TryAcquired p s value (s.tryAcquire p value) := by
  unfold tryAcquire
  split
  · exact .null
  next d =>
  dsimp only
  split
  next hother =>
    cases hf : s.canonical.find? (p.descriptor d).key with
    | none => rw [hf] at hother; exact absurd rfl hother
    | some d' => rw [hf] at hother; exact .reused hf hother
  next hsame =>
  split
  next hnone =>
    refine .empty fun e hfind => ?_
    rw [hfind] at hnone
    simpa using hnone
  next e hfilter =>
  obtain ⟨hfind, hready⟩ := Option.filter_eq_some_iff.mp hfilter
  have hobs := observe_spec hi.retention (p.descriptor d).key
  split
  next u error heq => exact .observeThrew (heq ▸ hobs)
  next u heq =>
  rw [heq] at hobs
  have hres : s.Resident p e := by
    rw [State.Resident, hi.layout.entry_key _ _ hfind]; exact hfind
  exact .hit (not_not.mp hsame) hfind hready hobs (hit_cases hobs.reorders.retention
    ((hobs.reorders.quiet.resident e).mpr hres) d)

/-! ## The end of a load -/

/-- The reservation a publication starts from: the old one while none of its
victims is leased, else a new one. -/
inductive Settled (p : Params) (s : State) (l : LoadId) : State → Prop
  | kept (free : ∀ v ∈ (s.loads l).victims, (s.heap v).pins = 0) : Settled p s l s
  | moved {offset : Nat} {victims : List EntryId}
      (placement : Placement p s (s.bytesOf p l) (some l) offset victims) :
      Settled p s l (s.replan l offset victims)

/-- The section after the last read. -/
inductive ReadFinished (p : Params) (s : State) (t : Tid) (d : DescId) (l : LoadId) :
    State × Outcome → Prop
  | leasedAway (leased : ∃ v ∈ (s.loads l).victims, (s.heap v).pins ≠ 0) : ReadFinished p s t d l
      ((s.modifyStats fun x => { x with
        pinnedCapacityFailures := x.pinnedCapacityFailures + 1 }).failLoad p t l .reservationLeased)
  | duplicate {w : State} (settled : Settled p s l w)
      (found : s.entries.contains (p.descriptor d).key = true) :
      ReadFinished p s t d l ((w.placeResult l).failLoad p t l .duplicatePublication)
  | published {w u : State} (settled : Settled p s l w) (published : Published p w u t d l) :
      ReadFinished p s t d l (u, .running)

variable {w : State}

theorem Settled.pending (h : Settled p s l w) (m : LoadId) :
    w.Pending p m ↔ s.Pending p m := by
  cases h with
  | kept => exact Iff.rfl
  | moved => exact (replan_spec s l _ _).pending m

theorem Settled.state (h : Settled p s l w) (m : LoadId) :
    (w.loads m).state = (s.loads m).state := by
  cases h with
  | kept => rfl
  | moved => exact (replan_spec s l _ _).state m

theorem Settled.desc (h : Settled p s l w) (e : EntryId) :
    (w.heap e).desc = (s.heap e).desc := by
  cases h with
  | kept => rfl
  | moved => rw [(replan_spec s l _ _).entry]

theorem Settled.entries (h : Settled p s l w) : w.entries = s.entries := by
  cases h with
  | kept => rfl
  | moved => rfl

theorem Settled.calls (h : Settled p s l w) : w.calls = s.calls := by
  cases h with
  | kept => rfl
  | moved => rfl

theorem Settled.inv (h : Settled p s l w) (hi : Inv p s) (hp : s.Pending p l)
    (hs : (s.loads l).state = .loading) : Inv p w := by
  cases h with
  | kept => exact hi
  | moved placement => exact (replan_spec s l _ _).inv hi hp hs placement

theorem Settled.free {w} (h : Settled p s l w) :
    ∀ v ∈ (w.loads l).victims, (w.heap v).pins = 0 := by
  cases h with
  | kept free => exact free
  | moved placement =>
    intro v hv
    rw [(replan_spec s l _ _).load_self] at hv
    rw [(replan_spec s l _ _).entry]
    exact (evictable_iff.mp (placement.evictable v hv)).2.1

theorem addBytesRead_quiet (p : Params) (s : State) (d : DescId) (n : Nat) :
    Quiet s (s.addBytesRead p d n) := by
  unfold addBytesRead
  exact Quiet.modifyStats rfl rfl rfl rfl

theorem Inv.addBytesRead (hi : Inv p s) (d : DescId) (n : Nat) : Inv p (s.addBytesRead p d n) :=
  hi.quiet_of_order (addBytesRead_quiet p s d n) rfl rfl

theorem publish_cases (hi : Inv p s) (h : Settled p s l w) (hp : s.Pending p l)
    (hs : (s.loads l).state = .loading) (hd : (s.heap l).desc = d) (t : Tid) :
    ReadFinished p s t d l (w.publish p t d l) := by
  rcases publish_spec (h.inv hi hp hs) ((h.pending l).mpr hp) ((h.state l).trans hs)
    ((h.desc l).trans hd) t with ⟨hdup, heq⟩ | ⟨_, u, heq, hpub⟩
  · rw [heq]; exact .duplicate h (h.entries ▸ hdup)
  · rw [heq]; exact .published h hpub

theorem finishRead_cases (hi : Inv p s) (hp : s.Pending p l) (hs : (s.loads l).state = .loading)
    (hd : (s.heap l).desc = d) (t : Tid) :
    ReadFinished p (s.addBytesRead p d (p.descriptor d).extents.length) t d l
      (s.finishRead p t d l) := by
  have hi' := hi.addBytesRead d (p.descriptor d).extents.length
  unfold finishRead
  generalize hw : s.addBytesRead p d (p.descriptor d).extents.length = w at hi'
  have hp' : w.Pending p l := by rw [← hw]; exact hp
  have hs' : (w.loads l).state = .loading := by rw [← hw]; exact hs
  have hd' : (w.heap l).desc = d := by rw [← hw]; exact hd
  have hbytes : w.bytesOf p l = (p.descriptor d).bytes := by rw [bytesOf, hd']
  dsimp only
  split
  next hleased =>
    rcases allocationPlan_spec hi'.layout hi'.retention (p.descriptor d).bytes_pos (some l) with
      ⟨offset, victims, hplan, hplace⟩ | ⟨hplan, _⟩
    · rw [hplan]
      exact publish_cases hi' (.moved (hbytes ▸ hplace)) hp' hs' hd' t
    · rw [hplan]
      simp only [List.any_eq_true, decide_eq_true_eq] at hleased
      exact .leasedAway hleased
  next hfree =>
  refine publish_cases hi' (.kept fun v hv => ?_) hp' hs' hd' t
  simp only [List.any_eq_true, decide_eq_true_eq, not_exists, not_and, not_not] at hfree
  exact hfree v hv

/-- The section after the copy. -/
inductive CopyFinished (p : Params) (s : State) (t : Tid) (d : DescId) (l : LoadId) :
    State × Outcome → Prop
  | threw {u : State} {error : CacheError} (touched : Touched p s l (u, some error)) :
      CopyFinished p s t d l (u.failLoad p t l error)
  | leased {u : State} (touched : Touched p s l (u, none)) :
      CopyFinished p s t d l (u.complete p t d l)

theorem finishCopy_cases (hi : Inv p s) (hres : s.Resident p l) (t : Tid) (d : DescId) :
    CopyFinished p s t d l (s.finishCopy p t d l) := by
  have h := touch_spec hi.retention hres true
  unfold finishCopy
  rw [hi.layout.result l]
  split
  next u error heq => rw [heq] at h; exact .threw h
  next u heq => rw [heq] at h; exact .leased h

/-- A coalesced caller's result. -/
inductive Joined (p : Params) (s : State) (t : Tid) (d : DescId) (l : LoadId) :
    State × Outcome → Prop
  | failed {error : CacheError} (found : (s.loads l).error = some error) :
      Joined p s t d l ((s.leave t).dropLoad l, .threw error)
  | hit {u : State} {o : Outcome} (none : (s.loads l).error = none) (hit : Hit p s l d (u, o)) :
      Joined p s t d l ((u.leave t).dropLoad l, o)

theorem joinResult_cases (hi : Inv p s) (t : Tid) (d : DescId)
    (hready : (s.loads l).error = none → s.Resident p l) :
    Joined p s t d l (s.joinResult p t d l) := by
  unfold joinResult
  split
  next error herror => exact .failed herror
  next hnone =>
    rw [hi.layout.result l]
    exact .hit hnone (hit_cases hi.retention (hready hnone) d)

end ExpertStreaming.RamCache
