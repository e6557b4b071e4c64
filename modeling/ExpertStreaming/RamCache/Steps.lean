import ExpertStreaming.RamCache.Sections

/-! # The RAM expert cache: every step keeps the invariant

The inversion lemma of the step function, and from it that every state some
interleaving of threads reaches satisfies `Inv`.
-/
namespace ExpertStreaming.RamCache
open Lib

variable {p : Params} {s : State} {t : Tid} {d : DescId} {l : LoadId}

/-! ## Sections -/

theorem Inv.count {f} (hi : Inv p s) (hresident : (f s.stats).residentBytes = s.stats.residentBytes)
    (hreserved : (f s.stats).reservedBytes = s.stats.reservedBytes)
    (hstaging : (f s.stats).stagingUsedBytes = s.stats.stagingUsedBytes)
    (hactive : (f s.stats).activeLoads = s.stats.activeLoads) : Inv p (s.modifyStats f) :=
  hi.quiet_of_order (Quiet.modifyStats hresident hreserved hstaging hactive) rfl rfl

variable {e : EntryId} {r : State × Outcome}

theorem Hit.calls (h : Hit p s e d r) :
    r.1.calls = s.calls := by
  cases h with
  | threw touched => exact touched.reorders.quiet.calls
  | leased touched => exact touched.reorders.quiet.calls

theorem Hit.inv (h : Hit p s e d r) (hi : Inv p s)
    (he : s.Resident p e) (hready : (s.heap e).ready = true) (hd : (s.heap e).desc = d) :
    Inv p r.1 := by
  cases h with
  | threw touched => exact hi.reorders touched.reorders
  | @leased u touched =>
    have hq := touched.reorders.quiet
    have hu := hi.reorders touched.reorders
    refine Inv.grant (hu.count rfl rfl rfl rfl) ?_ ?_ ?_
    · exact (hq.resident e).mpr he
    · exact (hq.ready he).trans hready
    · exact (hq.desc e).trans hd

theorem Inv.desc_of_find (hi : Inv p s) (hcanon : s.canonical.find? (p.descriptor d).key = some d)
    (hfind : s.entries.find? (p.descriptor d).key = some e) :
    s.Resident p e ∧ (s.heap e).desc = d := by
  have hkey := hi.layout.entry_key _ _ hfind
  have hres : s.Resident p e := by rw [State.Resident, hkey]; exact hfind
  have hentry := hi.canonical.entry e hres
  rw [hkey, hcanon] at hentry
  exact ⟨hres, (Option.some.inj hentry).symm⟩

theorem Attempted.inv (h : Attempted p s t d r) (hi : Inv p s)
    (he : Entering p s t d) : Inv p r.1 := by
  cases h with
  | hit found ready hit =>
    obtain ⟨hres, hd⟩ := hi.desc_of_find he.canonical found
    exact hit.inv (hi.leave he.idle) hres ready hd
  | coalesced misses found =>
    have hcounted : Inv p (s.modifyStats fun x => { x with
        coalescedLoads := x.coalescedLoads + 1 }) := hi.count rfl rfl rfl rfl
    exact hcounted.coalesce he.idle he.canonical found
  | noRoom misses quiet full =>
    have hcounted : Inv p (s.modifyStats fun x => { x with
        pinnedCapacityFailures := x.pinnedCapacityFailures + 1 }) := hi.count rfl rfl rfl rfl
    exact hcounted.leave he.idle
  | waits misses busy =>
    have hcounted : Inv p (s.modifyStats fun x => { x with
        stagingWaits := x.stagingWaits + 1 }) := hi.count rfl rfl rfl rfl
    exact hcounted.await he.idle he.canonical he.capacity he.staging
  | mismatch misses bad => exact hi.leave he.idle
  | admitted misses admissible sources => exact hi.reserve admissible

theorem Acquired.inv {value} (h : Acquired p s t value r) (hi : Inv p s) : Inv p r.1 := by
  cases h with
  | null => exact hi
  | tooLarge large =>
    have hcounted : Inv p (s.modifyStats fun x => { x with
        rejectedAdmissions := x.rejectedAdmissions + 1 }) := hi.count rfl rfl rfl rfl
    exact hcounted
  | reused found other => exact hi
  | observeThrew observed => exact (hi.register _).reorders observed.reorders
  | @attempted d u r registered observe entering attempted =>
    have hobs := observe_spec registered.retention (p.descriptor d).key
    rw [observe] at hobs
    exact attempted.inv (registered.reorders hobs.reorders) entering

theorem TryAcquired.inv {value} (h : TryAcquired p s value r) (hi : Inv p s) : Inv p r.1 := by
  cases h with
  | null => exact hi
  | reused found other => exact hi
  | empty misses => exact hi
  | observeThrew observed => exact hi.reorders observed.reorders
  | @hit d u e r same found ready observed hit =>
    have hkey := hi.layout.entry_key _ _ found
    have hres : s.Resident p e := by rw [State.Resident, hkey]; exact found
    have hentry := hi.canonical.entry e hres
    rw [← hkey, hentry] at same
    have hq := observed.reorders.quiet
    exact hit.inv (hi.reorders observed.reorders) ((hq.resident e).mpr hres)
      ((hq.ready hres).trans ready) ((hq.desc e).trans same)

theorem ReadFinished.inv (h : ReadFinished p s t d l r) (hi : Inv p s)
    (hc : s.calls.find? t = some (.reading d l (p.descriptor d).extents.length)) : Inv p r.1 := by
  obtain ⟨hp, hs, hd, -⟩ := hi.calls.ok t _ hc
  cases h with
  | leasedAway leased =>
    have hcounted : Inv p (s.modifyStats fun x => { x with
        pinnedCapacityFailures := x.pinnedCapacityFailures + 1 }) := hi.count rfl rfl rfl rfl
    exact hcounted.failLoad hc rfl hp _
  | @duplicate w settled found =>
    have hw := settled.inv hi hp hs
    have hpw := (settled.pending l).mpr hp
    have hnot := (hw.layout.loading hpw ((settled.state l).trans hs)).1
    have hcw : (w.placeResult l).calls.find? t = some (.reading d l _) := settled.calls ▸ hc
    exact (hw.placeResult hnot).failLoad hcw rfl ((placeResult_pending l).mpr hpw) _
  | published settled published =>
    exact published.inv (settled.inv hi hp hs) (settled.calls ▸ hc) settled.free

theorem Inv.copying_resident (hi : Inv p s) {n} (hc : s.calls.find? t = some (.copying d l n)) :
    s.Resident p l ∧ (s.heap l).ready = false ∧
      (s.heap l).arenaOffset = (s.loads l).arenaOffset := by
  obtain ⟨hp, hs, -⟩ := hi.calls.ok t _ hc
  exact hi.layout.copying hp hs

theorem CopyFinished.inv (h : CopyFinished p s t d l r) (hi : Inv p s)
    (hc : s.calls.find? t = some (.copying d l (p.descriptor d).bytes)) : Inv p r.1 := by
  obtain ⟨hp, -⟩ := hi.calls.ok t _ hc
  cases h with
  | threw touched =>
    have hq := touched.reorders.quiet
    exact (hi.reorders touched.reorders).failLoad (hq.calls ▸ hc) rfl ((hq.pending l).mpr hp) _
  | leased touched =>
    exact (hi.reorders touched.reorders).complete (touched.reorders.quiet.calls ▸ hc)

theorem Inv.joined_ready (hi : Inv p s) (hc : s.calls.find? t = some (.coalesced d l))
    (hdone : (s.loads l).state = .ready ∨ (s.loads l).state = .failed)
    (hnone : (s.loads l).error = none) :
    s.Resident p l ∧ (s.heap l).ready = true ∧ (s.heap l).desc = d := by
  obtain ⟨hd, -, hphase⟩ := hi.calls.ok t _ hc
  have hready : (s.loads l).state = .ready := by
    rcases hdone with hready | hfailed
    · exact hready
    · rcases hphase with hp | ⟨hready, -⟩ | ⟨-, herror⟩
      · rcases hi.layout.load_phase l hp with hload | hcopy
        · rw [hload.1] at hfailed; cases hfailed
        · rw [hcopy.1] at hfailed; cases hfailed
      · exact hready
      · rw [hnone] at herror; cases herror
  have hheld : 0 < (s.loads l).useCount := by
    have hle := holders_erase hc l
    rw [show (Call.coalesced d l).load? = some l from rfl, if_pos rfl] at hle
    have huses := hi.uses l
    omega
  obtain ⟨hres, hr⟩ := hi.pins.completing l ⟨hready, hheld⟩
  exact ⟨hres, hr, hd⟩

theorem Joined.inv (h : Joined p s t d l r) (hi : Inv p s)
    (hc : s.calls.find? t = some (.coalesced d l))
    (hdone : (s.loads l).state = .ready ∨ (s.loads l).state = .failed) : Inv p r.1 := by
  cases h with
  | failed found => exact hi.dropJoined hc
  | hit none hit =>
    obtain ⟨hres, hready, hd⟩ := hi.joined_ready hc hdone none
    have hcalls := hit.calls
    exact (hit.inv hi hres hready hd).dropJoined (hcalls ▸ hc)

/-! ## Steps -/

/-- Everything a step can be. -/
inductive Stepped (p : Params) (s : State) : Action → State × Outcome → Prop
  | acquire {t : Tid} {value : Option DescId} {r : State × Outcome}
      (outside : s.calls.find? t = none) (acquired : Acquired p s t value r) :
      Stepped p s (.acquire t value) r
  | wake {t : Tid} {d : DescId} {r : State × Outcome}
      (call : s.calls.find? t = some (.admission d)) (entering : Entering p s t d)
      (attempted : Attempted p s t d r) : Stepped p s (.wake t) r
  | join {t : Tid} {d : DescId} {l : LoadId} {r : State × Outcome}
      (call : s.calls.find? t = some (.coalesced d l))
      (done : (s.loads l).state = .ready ∨ (s.loads l).state = .failed)
      (joined : Joined p s t d l r) : Stepped p s (.join t) r
  | readExtent {t : Tid} {d : DescId} {l : LoadId} {n : Nat} {x : SourceExtent}
      (call : s.calls.find? t = some (.reading d l n))
      (extent : (p.descriptor d).extents[n]? = some x) :
      Stepped p s (.readExtent t) (s.readExtent p t d l n x, .running)
  | readThrows {t : Tid} {d : DescId} {l : LoadId} {n : Nat} {x : SourceExtent}
      {junk : List UInt8} {text : String} (call : s.calls.find? t = some (.reading d l n))
      (extent : (p.descriptor d).extents[n]? = some x) (short : junk.length ≤ x.length) :
      Stepped p s (.readThrows t junk text) (s.readThrows p t d l n junk text, .running)
  | finishRead {t : Tid} {d : DescId} {l : LoadId} {r : State × Outcome}
      (call : s.calls.find? t = some (.reading d l (p.descriptor d).extents.length))
      (finished : ReadFinished p (s.addBytesRead p d (p.descriptor d).extents.length) t d l r) :
      Stepped p s (.finishRead t) r
  | readFailed {t : Tid} {d : DescId} {l : LoadId} {n : Nat} {error : CacheError}
      (call : s.calls.find? t = some (.readFailed d l n error)) :
      Stepped p s (.finishRead t) ((s.addBytesRead p d n).failLoad p t l error)
  | copyByte {t : Tid} {d : DescId} {l : LoadId} {n : Nat}
      (call : s.calls.find? t = some (.copying d l n)) (more : n < (p.descriptor d).bytes) :
      Stepped p s (.copyByte t) (s.copyByte t d l n, .running)
  | finishCopy {t : Tid} {d : DescId} {l : LoadId} {r : State × Outcome}
      (call : s.calls.find? t = some (.copying d l (p.descriptor d).bytes))
      (finished : CopyFinished p s t d l r) : Stepped p s (.finishCopy t) r
  | tryAcquire {value : Option DescId} {r : State × Outcome}
      (acquired : TryAcquired p s value r) : Stepped p s (.tryAcquire value) r
  | erase (key : ExpertKey) : Stepped p s (.erase key) (s.eraseKey p key)
  | clear : Stepped p s .clear s.clear
  | release {i : LeaseId} {x : Lease} (found : s.leases.find? i = some x) :
      Stepped p s (.release i) (s.release i x, .released)

theorem Inv.entering_of_admission (hi : Inv p s) (hc : s.calls.find? t = some (.admission d)) :
    Entering p s t d := by
  obtain ⟨hcap, hstage⟩ := hi.calls.ok t _ hc
  refine ⟨?_, hi.canonical.call t _ hc, hcap, hstage⟩
  intro c hc'
  rw [hc] at hc'; cases hc'; rfl

theorem resume_cases (hi : Inv p s) {a} (h : s.resume p a = some r) : Stepped p s a r := by
  unfold State.resume at h
  split at h
  next t =>
    split at h
    next d hc =>
      cases h
      have he := hi.entering_of_admission hc
      exact .wake hc he (attempt_cases hi he)
    · cases h
  next t =>
    split at h
    next d l hc =>
      split at h
      next hdone =>
        cases h
        exact .join hc hdone (joinResult_cases hi t d fun hnone => (hi.joined_ready hc hdone hnone).1)
      · cases h
    · cases h
  next t =>
    split at h
    next d l n hc =>
      split at h
      next x hx => cases h; exact .readExtent hc hx
      · cases h
    · cases h
  next t junk text =>
    split at h
    next d l n hc =>
      split at h
      next x hx =>
        split at h
        next hshort => cases h; exact .readThrows hc hx hshort
        · cases h
      · cases h
    · cases h
  next t =>
    split at h
    next d l n hc =>
      split at h
      next hn =>
        cases h
        subst hn
        obtain ⟨hp, hs, hd, -⟩ := hi.calls.ok t _ hc
        exact .finishRead hc (finishRead_cases hi hp hs hd t)
      · cases h
    next d l n error hc => cases h; exact .readFailed hc
    · cases h
  next t =>
    split at h
    next d l n hc =>
      split at h
      next hlt => cases h; exact .copyByte hc hlt
      · cases h
    · cases h
  next t =>
    split at h
    next d l n hc =>
      split at h
      next hn =>
        cases h
        subst hn
        exact .finishCopy hc (finishCopy_cases hi (hi.copying_resident hc).1 t d)
      · cases h
    · cases h
  · cases h

/-- **Inversion of the step function.** -/
theorem step_cases (hi : Inv p s) {a} (h : step p s a = some r) :
    Stepped p s a r := by
  cases a with
  | acquire t value =>
    simp only [step] at h
    split at h
    next hout => cases h; exact .acquire hout (acquire_cases hi hout value)
    · cases h
  | tryAcquire value => cases h; exact .tryAcquire (tryAcquire_cases hi value)
  | erase key => cases h; exact .erase key
  | clear => cases h; exact .clear
  | release i =>
    simp only [step] at h
    split at h
    next x hx => cases h; exact .release hx
    · cases h
  | wake t => exact resume_cases hi h
  | join t => exact resume_cases hi h
  | readExtent t => exact resume_cases hi h
  | readThrows t junk text => exact resume_cases hi h
  | finishRead t => exact resume_cases hi h
  | copyByte t => exact resume_cases hi h
  | finishCopy t => exact resume_cases hi h

/-- **A step keeps the invariant.** -/
theorem Stepped.inv {a} (h : Stepped p s a r) (hi : Inv p s) :
    Inv p r.1 := by
  cases h with
  | acquire outside acquired => exact acquired.inv hi
  | wake call entering attempted => exact attempted.inv hi entering
  | join call done joined => exact joined.inv hi call done
  | readExtent call extent => exact hi.readExtent call extent
  | readThrows call extent short => exact hi.readThrows _ call extent short
  | finishRead call finished => exact finished.inv (hi.addBytesRead _ _) call
  | readFailed call =>
    exact (hi.addBytesRead _ _).failLoad call rfl (hi.calls.ok _ _ call).1 _
  | copyByte call more => exact hi.copyByte call more
  | finishCopy call finished => exact finished.inv hi call
  | tryAcquire acquired => exact acquired.inv hi
  | erase key => exact hi.eraseKey key
  | clear => exact hi.clear
  | release found => exact hi.release found

theorem Inv.initial (p : Params) (staging arena : Memory UInt8) :
    Inv p (State.initial staging arena) := by
  have hnone : ∀ e, ¬ (State.initial staging arena).Resident p e := by intro e h; cases h
  have hidle : ∀ l, ¬ (State.initial staging arena).Pending p l := by intro l h; cases h
  refine ⟨?_, ⟨?_, ?_, ?_⟩, ⟨?_, ?_⟩, ⟨rfl, rfl, rfl, rfl⟩, ⟨?_, ?_, ?_, ?_⟩, ?_, ⟨?_, ?_, ?_⟩, ?_⟩
  · exact .of_idle (fun _ => rfl) (fun _ => rfl) (fun _ => rfl) (fun _ _ h => (nomatch h)) hidle
  · intro e h; exact absurd h (hnone e)
  · intro l h; exact absurd h (hidle l)
  · intro t c h; cases h
  · intro e h; cases h
  · exact List.Pairwise.nil
  · intro e; rfl
  · intro i x h; cases h
  · intro i x h; cases h
  · intro l h; cases h.1
  · intro l; rfl
  · intro t c h; cases h
  · intro t t' c c' l h; cases h
  · intro l h; exact absurd h (hidle l)
  · intro e h; exact absurd h (hnone e)

theorem Inv.step {a u} (hi : Inv p s) (h : Step p s a u) : Inv p u :=
  (step_cases hi h).inv hi

/-- **The invariant holds in every state any interleaving reaches.** -/
theorem Reached.inv (h : Reached p s) : Inv p s := by
  refine Reachable.invariant ?_ (fun _ _ _ hi hs => hi.step hs) h
  rintro s₀ ⟨staging, arena, rfl⟩
  exact Inv.initial p staging arena

end ExpertStreaming.RamCache
