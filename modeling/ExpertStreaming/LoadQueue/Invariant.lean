import ExpertStreaming.LoadQueue.Model

/-! # The load queue: what its sections do, and what always holds

One inversion lemma for the step relation, and the invariant it keeps: each slot
in use belongs to one request, each running slot to one worker, the counters count
the slots in use, and a finished request has a live lease for its own descriptor
or an error.
-/
namespace ExpertStreaming.LoadQueue
open Lib RamCache List

variable {p : Params} {cfg : QueueConfig p} {q u : Queue} {id k w : Nat} {d : DescId}

/-! ## What a slot counts -/

def Slot.live (item : Slot) : Nat := if item.state = .free then 0 else 1

def Slot.liveFor (id : Nat) (item : Slot) : Nat := if item.id = id then item.live else 0

def Slot.bytes (p : Params) (item : Slot) : Nat :=
  match item.desc with | none => 0 | some d => (p.descriptor d).bytes

variable {item : Slot} {cache : State} {o : Outcome} {a : Action} {payload : Option LeaseId}
  {error : Option CacheError} {x : Worker} {j : Nat}

theorem Slot.live_of_free (h : item.state = .free) : item.live = 0 := if_pos h

theorem Slot.live_of_used (h : item.state ≠ .free) : item.live = 1 := if_neg h

/-! ## Inversion -/

/-- The slot of a request just admitted, by what the cache lookup returned. -/
def Slot.answered (id : Nat) (d : DescId) : Outcome → Slot
  | .leased i => { state := .ready, id := id, desc := some d, payload := some i }
  | .threw error => { state := .ready, id := id, desc := some d, error := some error }
  | _ => { state := .queued, id := id, desc := some d }

theorem findAvailable_spec {slots available r} (h : findAvailable id slots k available = some r) :
    (∀ item ∈ slots, item.state ≠ .free → item.id ≠ id) ∧
      ∀ j, r = some j → available = some j ∨
        ∃ i item, j = k + i ∧ slots[i]? = some item ∧ item.state = .free := by
  induction slots generalizing k available with
  | nil => cases h; exact ⟨by simp, fun j hj => .inl hj⟩
  | cons x rest ih =>
    rw [findAvailable] at h
    split at h
    next hfree =>
      obtain ⟨hids, hr⟩ := ih h
      refine ⟨?_, ?_⟩
      · intro item hitem hused
        rcases mem_cons.mp hitem with rfl | hitem
        · exact absurd hfree hused
        · exact hids item hitem hused
      · intro j hj
        rcases hr j hj with havail | ⟨i, item, hi, hget, hstate⟩
        · cases available with
          | none => cases havail; exact .inr ⟨0, x, rfl, rfl, hfree⟩
          | some a => exact .inl havail
        · exact .inr ⟨i + 1, item, by omega, hget, hstate⟩
    next hused =>
    split at h
    · cases h
    next hid =>
    obtain ⟨hids, hr⟩ := ih h
    refine ⟨?_, ?_⟩
    · intro item hitem hin
      rcases mem_cons.mp hitem with rfl | hitem
      · exact hid
      · exact hids item hitem hin
    · intro j hj
      rcases hr j hj with havail | ⟨i, item, hi, hget, hstate⟩
      · exact .inl havail
      · exact .inr ⟨i + 1, item, by omega, hget, hstate⟩

theorem firstIn_spec {phase} (h : q.firstIn phase = some k) :
    ∃ item, q.slots[k]? = some item ∧ item.state = phase := by
  obtain ⟨hlt, hstate, -⟩ := findIdx?_eq_some_iff_getElem.mp h
  exact ⟨_, getElem?_eq_getElem hlt, by simpa using hstate⟩

theorem firstIn_isSome {phase} (h : q.slots[k]? = some item) (hstate : item.state = phase) :
    ∃ j, q.firstIn phase = some j := by
  rw [← Option.isSome_iff_exists, Queue.firstIn, findIdx?_isSome, any_eq_true]
  exact ⟨item, mem_of_getElem? h, by simpa using hstate⟩

/-! ## The invariant -/

def Result (cache : State) (d : DescId) (payload : Option LeaseId)
    (error : Option CacheError) : Prop :=
  (∃ i x, payload = some i ∧ error = none ∧ cache.leases.find? i = some x ∧ x.desc = d) ∨
    ∃ cause, payload = none ∧ error = some cause

def SlotOk (cache : State) (item : Slot) : Prop :=
  match item.state with
  | .free => item.desc = none ∧ item.payload = none ∧ item.error = none
  | .queued | .running => item.desc.isSome = true ∧ item.payload = none ∧ item.error = none
  | .ready => ∃ d, item.desc = some d ∧ Result cache d item.payload item.error

def Queue.Runs (q : Queue) (k : Nat) (d : DescId) : Prop :=
  ∃ item, q.slots[k]? = some item ∧ item.state = .running ∧ item.desc = some d

def WorkerOk (q : Queue) (w : Nat) : Worker → Prop
  | .waiting => q.cache.calls.find? w = none
  | .dequeued k => (∃ d, q.Runs k d) ∧ q.cache.calls.find? w = none
  | .loading k => ∃ d c, q.Runs k d ∧ q.cache.calls.find? w = some c ∧ c.desc = d
  | .loaded k payload error =>
    (∃ d, q.Runs k d ∧ Result q.cache d payload error) ∧ q.cache.calls.find? w = none
  | .stopped => q.cache.calls.find? w = none ∧ q.stopping = true

/-- **The queue's invariant.** -/
structure QueueInv (cfg : QueueConfig p) (q : Queue) : Prop where
  cache : Inv p q.cache
  slots : q.slots.length = cfg.requests
  workers : q.workers.length = cfg.workers
  slot : ∀ (k : Nat) item, q.slots[k]? = some item → SlotOk q.cache item
  worker : ∀ (w : Nat) x, q.workers[w]? = some x → WorkerOk q w x
  taken : ∀ (w w' : Nat) x x' k, q.workers[w]? = some x → q.workers[w']? = some x' →
    x.slot? = some k → x'.slot? = some k → w = w'
  running : ∀ (k : Nat) item, q.slots[k]? = some item → item.state = .running →
    ∃ (w : Nat) (x : Worker), q.workers[w]? = some x ∧ x.slot? = some k
  ids : ∀ id, total (Slot.liveFor id) q.slots ≤ 1
  outstanding : q.stats.outstanding = total Slot.live q.slots
  bytes : q.stats.outstandingBytes = total (Slot.bytes p) q.slots
  limit : q.stats.outstandingBytes ≤ cfg.byteLimit

/-! ## What a step does -/

def Queue.submitted (p : Params) (q : Queue) (k id : Nat) (d : DescId) (cache : State)
    (o : Outcome) : Queue :=
  let bytes := (p.descriptor d).bytes
  { q with
    cache := cache
    slots := q.slots.set k (.answered id d o)
    stats := { q.stats with
      submitted := q.stats.submitted + 1
      readyHits := q.stats.readyHits + if (Slot.answered id d o).payload.isSome then 1 else 0
      outstanding := q.stats.outstanding + 1
      outstandingBytes := q.stats.outstandingBytes + bytes
      peakOutstandingBytes := max q.stats.peakOutstandingBytes
        (q.stats.outstandingBytes + bytes) } }

def Queue.delivered (p : Params) (q : Queue) (k : Nat) (item : Slot) : Queue :=
  { q with
    slots := q.slots.set k { id := item.id }
    stats := { q.stats with
      outstanding := u64Sub q.stats.outstanding 1
      outstandingBytes := u64Sub q.stats.outstandingBytes (item.bytes p) } }

/-- The action is the next one of worker `w`, on behalf of slot `k`. -/
inductive Turn (q : Queue) (w k : Nat) : Action → Prop
  | enters {d : DescId} (worker : q.workers[w]? = some (.dequeued k)) (runs : q.Runs k d) :
      Turn q w k (.acquire w (some d))
  | resumes {a : Action} (worker : q.workers[w]? = some (.loading k)) (thread : a.thread? = some w) :
      Turn q w k a

inductive Stepped (cfg : QueueConfig p) (q : Queue) : QueueAction × QueueOutcome → Queue → Prop
  | declined {act : QueueAction} {o : QueueOutcome}
      (quiet : o = .refused ∨ o = .nothing ∨ ∃ e, o = .threw e) : Stepped cfg q (act, o) q
  | submitted {k id : Nat} {d : DescId} {item : Slot} {cache : State} {o : Outcome}
      (slot : q.slots[k]? = some item) (free : item.state = .free)
      (fresh : ∀ x ∈ q.slots, x.state ≠ .free → x.id ≠ id) (going : q.stopping = false)
      (fits : q.stats.outstandingBytes + (p.descriptor d).bytes ≤ cfg.byteLimit)
      (tried : q.cache.tryAcquire p (some d) = (cache, o)) :
      Stepped cfg q (.trySubmit id (some d), .accepted) (q.submitted p k id d cache o)
  | delivered {wait : Bool} {k : Nat} {item : Slot} (slot : q.slots[k]? = some item)
      (ready : item.state = .ready) :
      Stepped cfg q (.next wait, .completed item.id item.payload item.error) (q.delivered p k item)
  | dequeued {w k : Nat} {item : Slot} (worker : q.workers[w]? = some .waiting)
      (slot : q.slots[k]? = some item) (queued : item.state = .queued) :
      Stepped cfg q (.dequeue w, .moved)
        ((q.setSlot k { item with state := .running }).setWorker w (.dequeued k))
  | worked {w k : Nat} {a : Action} {cache : State} {o : Outcome} (turn : Turn q w k a)
      (step : Step p q.cache (a, o) cache) :
      Stepped cfg q (.work w a, .cached o) { q.setWorker w (.after k o) with cache := cache }
  | completed {w k : Nat} {payload : Option LeaseId} {error : Option CacheError} {item : Slot}
      (worker : q.workers[w]? = some (.loaded k payload error)) (slot : q.slots[k]? = some item) :
      Stepped cfg q (.complete w, .moved) ((q.setSlot k
        { item with payload := payload, error := error, state := .ready }).setWorker w .waiting)
  | exited {w : Nat} (worker : q.workers[w]? = some .waiting) (stopping : q.stopping = true) :
      Stepped cfg q (.exit w, .moved) (q.setWorker w .stopped)
  | stopped : Stepped cfg q (.stop, .moved) q.stop
  | other {a : Action} {cache : State} {o : Outcome} (foreign : Foreign cfg q a)
      (step : Step p q.cache (a, o) cache) :
      Stepped cfg q (.other a, .cached o) { q with cache := cache }

theorem lookUp_eq (hi : SlotOk q.cache item) (hfree : item.state = .free)
    (htried : q.cache.tryAcquire p (some d) = (cache, o)) :
    (q.admitTo p k item id d).lookUp p k { item with id := id, desc := some d } d =
      q.submitted p k id d cache o := by
  obtain ⟨state, id', desc, payload, error⟩ := item
  subst hfree
  obtain ⟨rfl, rfl, rfl⟩ := hi
  have htried' : (q.admitTo p k { state := .free, id := id' } id d).cache.tryAcquire p (some d) =
    (cache, o) := htried
  rw [Queue.lookUp, htried']
  cases o <;>
    simp [lookedUp, dropLease, Queue.submitted, Slot.answered, Queue.setSlot, Queue.admitTo]

theorem trySubmit_cases (hi : QueueInv cfg q) (id : Nat) (value : Option DescId) :
    Stepped cfg q (.trySubmit id value, (q.trySubmit cfg id value).2)
      (q.trySubmit cfg id value).1 := by
  unfold Queue.trySubmit
  split
  · exact .declined (.inr (.inr ⟨_, rfl⟩))
  next d =>
  split
  · exact .declined (.inr (.inr ⟨_, rfl⟩))
  · exact .declined (.inl rfl)
  next k hfind =>
  split
  · exact .declined (.inl rfl)
  next item hitem =>
  split
  · exact .declined (.inl rfl)
  next hopen =>
  obtain ⟨hfresh, havail⟩ := findAvailable_spec hfind
  have hfree : item.state = .free := by
    rcases havail k rfl with hnone | ⟨i, x, hk, hx, hstate⟩
    · cases hnone
    · rw [Nat.zero_add] at hk
      subst hk
      rw [hitem] at hx; cases hx; exact hstate
  simp only [not_or, Bool.not_eq_true, not_lt, u64Sub_of_le hi.limit] at hopen
  have hfits : q.stats.outstandingBytes + (p.descriptor d).bytes ≤ cfg.byteLimit := by
    have := hi.limit
    omega
  cases htried : q.cache.tryAcquire p (some d) with
  | mk cache o =>
    rw [lookUp_eq (hi.slot k item hitem) hfree htried]
    exact .submitted hitem hfree hfresh hopen.1 hfits htried

theorem next_cases (q : Queue) (wait : Bool) :
    Stepped cfg q (.next wait, (q.next p).2) (q.next p).1 := by
  unfold Queue.next
  split
  · exact .declined (.inr (.inl rfl))
  next k hfirst =>
  obtain ⟨item, hitem, hready⟩ := firstIn_spec hfirst
  rw [hitem]
  exact .delivered hitem hready

theorem dequeue_cases (h : q.dequeue w = some u) : Stepped cfg q (.dequeue w, .moved) u := by
  unfold Queue.dequeue at h
  split at h
  next k hworker hfirst =>
    split at h
    · cases h
    next =>
    obtain ⟨item, hitem, hqueued⟩ := firstIn_spec hfirst
    rw [hitem] at h
    cases h
    exact .dequeued hworker hitem hqueued
  · cases h

theorem work_cases (hi : QueueInv cfg q) (h : q.work p w a = some (u, o)) :
    Stepped cfg q (.work w a, .cached o) u := by
  unfold Queue.work at h
  split at h
  · cases h
  next k hmay =>
  obtain ⟨⟨cache, o'⟩, hstep, heq⟩ := Option.map_eq_some_iff.mp h
  cases heq
  refine .worked ?_ hstep
  unfold Queue.mayWork at hmay
  split at hmay
  next j hworker =>
    split at hmay
    next ha =>
      cases hmay
      obtain ⟨⟨d, hruns⟩, -⟩ := hi.worker w _ hworker
      obtain ⟨item, hitem, hrun, hdesc⟩ := hruns
      rw [ha, hitem, Option.bind_some, hdesc]
      exact .enters hworker ⟨item, hitem, hrun, hdesc⟩
    · cases hmay
  next j hworker =>
    split at hmay
    next ht => cases hmay; exact .resumes hworker ht
    · cases hmay
  · cases hmay

theorem complete_cases (hi : QueueInv cfg q) (h : q.complete w = some u) :
    Stepped cfg q (.complete w, .moved) u := by
  unfold Queue.complete at h
  split at h
  next k payload error hworker =>
    obtain ⟨⟨d, hruns, -⟩, -⟩ := hi.worker w _ hworker
    obtain ⟨item, hitem, hrun, -⟩ := hruns
    have hok := hi.slot k item hitem
    rw [SlotOk, hrun] at hok
    rw [hitem] at h
    cases h
    -- the slot held no lease to be released
    dsimp only
    rw [hok.2.1]
    exact .completed hworker hitem
  · cases h

/-- **Inversion of the step relation.** -/
theorem step_cases {act} (hi : QueueInv cfg q) (h : QueueStep cfg q act u) :
    Stepped cfg q act u := by
  obtain ⟨act, o⟩ := act
  cases act with
  | trySubmit id value =>
    have hr : q.trySubmit cfg id value = (u, o) := Option.some.inj h
    have hcases := trySubmit_cases hi id value
    rw [hr] at hcases
    exact hcases
  | next wait =>
    simp only [QueueStep, queueStep] at h
    split at h
    · cases h
    next =>
    have hr : q.next p = (u, o) := Option.some.inj h
    have hcases : Stepped cfg q (.next wait, _) _ := next_cases q wait
    rw [hr] at hcases
    exact hcases
  | dequeue w =>
    obtain ⟨u', hu, heq⟩ := Option.map_eq_some_iff.mp h
    cases heq
    exact dequeue_cases hu
  | work w a =>
    obtain ⟨r, hr, heq⟩ := Option.map_eq_some_iff.mp h
    cases heq
    exact work_cases hi hr
  | complete w =>
    obtain ⟨u', hu, heq⟩ := Option.map_eq_some_iff.mp h
    cases heq
    exact complete_cases hi hu
  | exit w =>
    obtain ⟨u', hu, heq⟩ := Option.map_eq_some_iff.mp h
    cases heq
    unfold Queue.exit at hu
    split at hu
    next hworker =>
      split at hu
      next hstop => cases hu; exact .exited hworker hstop
      · cases hu
    · cases hu
  | stop => cases h; exact .stopped
  | other a =>
    simp only [QueueStep, queueStep] at h
    split at h
    next hforeign =>
      obtain ⟨r, hr, heq⟩ := Option.map_eq_some_iff.mp h
      cases heq
      exact .other hforeign hr
    · cases h

/-! ## What stays in order -/

theorem Result.mono {cache'} (h : Result cache d payload error)
    (hleases : ∀ i x, payload = some i → cache.leases.find? i = some x →
      cache'.leases.find? i = some x) : Result cache' d payload error := by
  rcases h with ⟨i, x, hi, he, hx, hd⟩ | hfailed
  · exact .inl ⟨i, x, hi, he, hleases i x hi hx, hd⟩
  · exact .inr hfailed

theorem SlotOk.mono {cache'} (h : SlotOk cache item)
    (hleases : ∀ i x, item.payload = some i → cache.leases.find? i = some x →
      cache'.leases.find? i = some x) : SlotOk cache' item := by
  unfold SlotOk at h ⊢
  split
  next hs => rw [hs] at h; exact h
  next hs => rw [hs] at h; exact h
  next hs => rw [hs] at h; exact h
  next hs =>
  rw [hs] at h
  obtain ⟨d, hd, hresult⟩ := h
  exact ⟨d, hd, hresult.mono hleases⟩

theorem WorkerOk.transfer (h : WorkerOk q w x)
    (hcalls : u.cache.calls.find? w = q.cache.calls.find? w)
    (hruns : ∀ k d, x.slot? = some k → q.Runs k d → u.Runs k d)
    (hleases : ∀ i k error y, x = .loaded k (some i) error → q.cache.leases.find? i = some y →
      u.cache.leases.find? i = some y)
    (hstop : q.stopping = true → u.stopping = true) : WorkerOk u w x := by
  cases x with
  | waiting => exact hcalls.trans h
  | dequeued k =>
    obtain ⟨⟨d, hd⟩, hnone⟩ := h
    exact ⟨⟨d, hruns k d rfl hd⟩, hcalls.trans hnone⟩
  | loading k =>
    obtain ⟨d, c, hd, hc, hdesc⟩ := h
    exact ⟨d, c, hruns k d rfl hd, hcalls.trans hc, hdesc⟩
  | loaded k payload error =>
    obtain ⟨⟨d, hd, hresult⟩, hnone⟩ := h
    refine ⟨⟨d, hruns k d rfl hd, hresult.mono fun i y hi hy => ?_⟩, hcalls.trans hnone⟩
    exact hleases i k error y (by rw [hi]) hy
  | stopped => exact ⟨hcalls.trans h.1, hstop h.2⟩

theorem Queue.Runs.kept (h : q.Runs k d)
    (hslots : u.slots = q.slots.set j item) (hne : k ≠ j) : u.Runs k d := by
  obtain ⟨x, hx, hrun, hdesc⟩ := h
  refine ⟨x, ?_, hrun, hdesc⟩
  rw [hslots, getElem?_set_ne hne.symm]
  exact hx

def LeasesKept (q : Queue) (cache : State) : Prop :=
  ∀ i x, q.Holds i → q.cache.leases.find? i = some x → cache.leases.find? i = some x

theorem LeasesKept.refl (q : Queue) : LeasesKept q q.cache := fun _ _ _ hx => hx

theorem LeasesKept.of_step (hi : Inv p q.cache)
    (h : Step p q.cache (a, o) cache) (hrelease : ∀ i, a = .release i → ¬ q.Holds i) :
    LeasesKept q cache := fun i _ hheld hx =>
  (RamCache.step_cases hi h).lease_kept hi hx fun ha => hrelease i ha hheld

theorem QueueInv.slots_kept (hi : QueueInv cfg q) (hkept : LeasesKept q cache)
    (h : q.slots[j]? = some item) : SlotOk cache item :=
  (hi.slot j item h).mono fun i x hpay hx =>
    hkept i x (.inl ⟨item, mem_of_getElem? h, hpay⟩) hx

theorem QueueInv.slots_set (hi : QueueInv cfg q) (hkept : LeasesKept q cache) {new}
    (hnew : SlotOk cache new) (h : (q.slots.set k new)[j]? = some item) : SlotOk cache item := by
  rcases getElem?_set_cases h with ⟨-, rfl⟩ | ⟨-, hold⟩
  · exact hnew
  · exact hi.slots_kept hkept hold

theorem QueueInv.worker_kept (hi : QueueInv cfg q) (hkept : LeasesKept q u.cache)
    (h : q.workers[j]? = some x) (hcalls : u.cache.calls.find? j = q.cache.calls.find? j)
    (hruns : ∀ k d, x.slot? = some k → q.Runs k d → u.Runs k d)
    (hstop : q.stopping = true → u.stopping = true) : WorkerOk u j x := by
  refine (hi.worker j x h).transfer hcalls hruns (fun i k error y hx hy => ?_) hstop
  exact hkept i y (.inr ⟨x, mem_of_getElem? h, by rw [hx]; rfl⟩) hy

theorem QueueInv.runs_of_taken (hi : QueueInv cfg q) (h : q.workers[w]? = some x)
    (hk : x.slot? = some k) : ∃ d, q.Runs k d := by
  have hok := hi.worker w x h
  cases x with
  | waiting => cases hk
  | dequeued j => cases hk; exact hok.1
  | loading j => cases hk; obtain ⟨d, c, hd, -⟩ := hok; exact ⟨d, hd⟩
  | loaded j payload error => cases hk; obtain ⟨⟨d, hd, -⟩, -⟩ := hok; exact ⟨d, hd⟩
  | stopped => cases hk

theorem QueueInv.not_taken (hi : QueueInv cfg q) (hitem : q.slots[k]? = some item)
    (hidle : item.state ≠ .running) (h : q.workers[w]? = some x) : x.slot? ≠ some k := by
  intro hk
  obtain ⟨d, y, hy, hrun, -⟩ := hi.runs_of_taken h hk
  rw [hitem] at hy
  cases hy
  exact hidle hrun

theorem QueueInv.distinct (hi : QueueInv cfg q) {i a b} (ha : q.slots[i]? = some a)
    (hb : q.slots[j]? = some b) (hused : a.state ≠ .free) (hused' : b.state ≠ .free)
    (hid : a.id = b.id) : i = j := by
  by_contra hne
  have htwo := two_le_total (f := Slot.liveFor b.id) ha hb hne
  rw [Slot.liveFor, Slot.liveFor, if_pos hid, if_pos rfl, Slot.live_of_used hused,
    Slot.live_of_used hused'] at htwo
  exact absurd (htwo.trans (hi.ids b.id)) (by decide)

/-! ## Every step keeps the invariant -/

theorem QueueInv.cache_step (hi : QueueInv cfg q) (hinv : Inv p cache) (hkept : LeasesKept q cache)
    (hcalls : ∀ w < cfg.workers, cache.calls.find? w = q.cache.calls.find? w) :
    QueueInv cfg { q with cache := cache } := by
  refine ⟨hinv, hi.slots, hi.workers, fun k item h => hi.slots_kept hkept h, ?_, hi.taken,
    hi.running, hi.ids, hi.outstanding, hi.bytes, hi.limit⟩
  intro w x hw
  obtain ⟨hlt, -⟩ := List.getElem?_eq_some_iff.mp hw
  exact hi.worker_kept (u := { q with cache := cache }) hkept hw (hcalls w (hi.workers ▸ hlt))
    (fun _ _ _ h => h) id

theorem answered_ok (hi : Inv p q.cache)
    (htried : q.cache.tryAcquire p (some d) = (cache, o)) (id : Nat) :
    SlotOk cache (.answered id d o) := by
  have hs : Step p q.cache (.tryAcquire (some d), o) cache := congrArg some htried
  have hchange := ((RamCache.step_cases hi hs).change hi).leases
  cases o with
  | leased i =>
    obtain ⟨x, hx, hd⟩ := hchange.leased rfl rfl
    exact ⟨d, rfl, .inl ⟨i, x, rfl, rfl, hx, hd⟩⟩
  | threw error => exact ⟨d, rfl, .inr ⟨error, rfl, rfl⟩⟩
  | running => exact ⟨rfl, rfl, rfl⟩
  | empty => exact ⟨rfl, rfl, rfl⟩
  | erased found => exact ⟨rfl, rfl, rfl⟩
  | cleared => exact ⟨rfl, rfl, rfl⟩
  | released => exact ⟨rfl, rfl, rfl⟩

theorem answered_fields (id : Nat) (d : DescId) (o : Outcome) :
    (Slot.answered id d o).id = id ∧ (Slot.answered id d o).desc = some d ∧
      ((Slot.answered id d o).state = .ready ∨ (Slot.answered id d o).state = .queued) := by
  cases o <;> simp [Slot.answered]

theorem QueueInv.submitted (hi : QueueInv cfg q) (hslot : q.slots[k]? = some item)
    (hfree : item.state = .free) (hfresh : ∀ x ∈ q.slots, x.state ≠ .free → x.id ≠ id)
    (hfits : q.stats.outstandingBytes + (p.descriptor d).bytes ≤ cfg.byteLimit)
    (htried : q.cache.tryAcquire p (some d) = (cache, o)) :
    QueueInv cfg (q.submitted p k id d cache o) := by
  have hs : Step p q.cache (.tryAcquire (some d), o) cache := congrArg some htried
  have hkept : LeasesKept q cache := .of_step hi.cache hs fun i h => by cases h
  obtain ⟨hid, hdesc, hphase⟩ := answered_fields id d o
  have hused : (Slot.answered id d o).state ≠ .free := by
    intro h; rw [h] at hphase; simp at hphase
  have hidle : item.state ≠ .running := by rw [hfree]; simp
  have hempty := hi.slot k item hslot
  rw [SlotOk, hfree] at hempty
  refine ⟨hi.cache.step hs, ?_, hi.workers, ?_, ?_, hi.taken, ?_, ?_, ?_, ?_, hfits⟩
  · exact (length_set).trans hi.slots
  · intro j x hx
    exact hi.slots_set hkept (answered_ok hi.cache htried id) hx
  · intro w x hw
    refine hi.worker_kept (u := q.submitted p k id d cache o) hkept hw ?_ ?_ (fun h => h)
    · exact ((RamCache.step_cases hi.cache hs).change hi.cache).calls.other fun h => by cases h
    · intro j d' hj hruns
      exact hruns.kept rfl fun hjk => hi.not_taken hslot hidle hw (hjk ▸ hj)
  · intro j x hx hrun
    rcases getElem?_set_cases hx with ⟨-, rfl⟩ | ⟨-, hold⟩
    · rw [hrun] at hphase; simp at hphase
    · exact hi.running j x hold hrun
  · intro id'
    have hsum := total_set (Slot.liveFor id') hslot (.answered id d o)
    have hold : item.liveFor id' = 0 := by
      rw [Slot.liveFor, Slot.live_of_free hfree, ite_self]
    have hnew : (Slot.answered id d o).liveFor id' = if id = id' then 1 else 0 := by
      rw [Slot.liveFor, hid, Slot.live_of_used hused]
    have hle := hi.ids id'
    rw [hold, hnew] at hsum
    show total (Slot.liveFor id') (q.slots.set k _) ≤ 1
    split at hsum
    next heq =>
      have hzero : total (Slot.liveFor id') q.slots = 0 := by
        refine total_eq_zero fun x hx => ?_
        by_cases hxfree : x.state = .free
        · rw [Slot.liveFor, Slot.live_of_free hxfree, ite_self]
        · exact if_neg (heq ▸ hfresh x hx hxfree)
      omega
    · omega
  · have hsum := total_set Slot.live hslot (.answered id d o)
    rw [Slot.live_of_free hfree, Slot.live_of_used hused, Nat.add_zero] at hsum
    exact (congrArg (· + 1) hi.outstanding).trans hsum.symm
  · have hsum := total_set (Slot.bytes p) hslot (.answered id d o)
    rw [Slot.bytes, Slot.bytes, hempty.1, hdesc, Nat.add_zero] at hsum
    exact (congrArg (· + _) hi.bytes).trans hsum.symm

theorem QueueInv.delivered (hi : QueueInv cfg q) (hslot : q.slots[k]? = some item)
    (hready : item.state = .ready) : QueueInv cfg (q.delivered p k item) := by
  have hidle : item.state ≠ .running := by rw [hready]; simp
  have hused : item.state ≠ .free := by rw [hready]; simp
  refine ⟨hi.cache, ?_, hi.workers, ?_, ?_, hi.taken, ?_, ?_, ?_, ?_, ?_⟩
  · exact (length_set).trans hi.slots
  · intro j x hx
    have hempty : SlotOk q.cache { id := item.id } := ⟨rfl, rfl, rfl⟩
    exact hi.slots_set (.refl q) hempty hx
  · intro w x hw
    refine hi.worker_kept (u := q.delivered p k item) (.refl q) hw rfl ?_ (fun h => h)
    intro j d' hj hruns
    exact hruns.kept rfl fun hjk => hi.not_taken hslot hidle hw (hjk ▸ hj)
  · intro j x hx hrun
    rcases getElem?_set_cases hx with ⟨-, rfl⟩ | ⟨-, hold⟩
    · cases hrun
    · exact hi.running j x hold hrun
  · intro id'
    have hsum := total_set (Slot.liveFor id') hslot { id := item.id }
    have hnew : Slot.liveFor id' { id := item.id } = 0 := ite_self _
    have hle := hi.ids id'
    show total (Slot.liveFor id') (q.slots.set k _) ≤ 1
    omega
  · have hsum := total_set Slot.live hslot { id := item.id }
    have hnew : Slot.live { id := item.id } = 0 := rfl
    rw [Slot.live_of_used hused, hnew] at hsum
    have hcount := hi.outstanding
    show u64Sub q.stats.outstanding 1 = total Slot.live (q.slots.set k _)
    rw [u64Sub_of_le (by omega)]
    omega
  · have hsum := total_set (Slot.bytes p) hslot { id := item.id }
    have hnew : Slot.bytes p { id := item.id } = 0 := rfl
    have hcount := hi.bytes
    show u64Sub q.stats.outstandingBytes (item.bytes p) = total (Slot.bytes p) (q.slots.set k _)
    rw [u64Sub_of_le (by omega)]
    omega
  · have hle := hi.limit
    have hge : item.bytes p ≤ q.stats.outstandingBytes := hi.bytes ▸ le_total (Slot.bytes p) hslot
    show u64Sub q.stats.outstandingBytes (item.bytes p) ≤ cfg.byteLimit
    rw [u64Sub_of_le hge]
    omega

theorem QueueInv.handed (hi : QueueInv cfg q) {new y} (hslot : q.slots[k]? = some item)
    (hworker : q.workers[w]? = some x) (hid : new.id = item.id) (hdesc : new.desc = item.desc)
    (hold : item.state ≠ .free) (hused : new.state ≠ .free)
    (hother : ∀ v z, q.workers[v]? = some z → v ≠ w → z.slot? ≠ some k)
    (hsame : ∀ j, x.slot? = some j → j = k) (hnew : SlotOk q.cache new)
    (hy : WorkerOk ((q.setSlot k new).setWorker w y) w y)
    (hmark : new.state = .running ∧ y.slot? = some k ∨ new.state ≠ .running ∧ y.slot? = none) :
    QueueInv cfg ((q.setSlot k new).setWorker w y) := by
  refine ⟨hi.cache, ?_, ?_, ?_, ?_, ?_, ?_, ?_, ?_, ?_, hi.limit⟩
  · exact (length_set).trans hi.slots
  · exact (length_set).trans hi.workers
  · intro j z hz
    exact hi.slots_set (.refl q) hnew hz
  · intro v z hz
    rcases getElem?_set_cases hz with ⟨rfl, rfl⟩ | ⟨hne, hz⟩
    · exact hy
    · refine hi.worker_kept (u := (q.setSlot k new).setWorker w y) (.refl q) hz rfl ?_ (fun h => h)
      intro j d' hj hruns
      exact hruns.kept rfl fun hjk => hother v z hz hne (hjk ▸ hj)
  · intro v v' z z' j hz hz' hj hj'
    rcases getElem?_set_cases hz with ⟨rfl, rfl⟩ | ⟨hne, hv⟩ <;>
      rcases getElem?_set_cases hz' with ⟨rfl, rfl⟩ | ⟨hne', hv'⟩
    · rfl
    · rcases hmark with ⟨-, hk⟩ | ⟨-, hnone⟩
      · rw [hk] at hj; cases hj
        exact absurd hj' (hother _ _ hv' hne')
      · rw [hnone] at hj; cases hj
    · rcases hmark with ⟨-, hk⟩ | ⟨-, hnone⟩
      · rw [hk] at hj'; cases hj'
        exact absurd hj (hother _ _ hv hne)
      · rw [hnone] at hj'; cases hj'
    · exact hi.taken v v' z z' j hv hv' hj hj'
  · intro j z hz hrun
    have hset := getElem?_set_self_of_some hworker y
    rcases getElem?_set_cases hz with ⟨rfl, rfl⟩ | ⟨hne, hz⟩
    · rcases hmark with ⟨-, hk⟩ | ⟨hnot, -⟩
      · exact ⟨w, y, hset, hk⟩
      · exact absurd hrun hnot
    · obtain ⟨v, z', hv, hj⟩ := hi.running j z hz hrun
      have hvw : v ≠ w := by
        rintro rfl
        rw [hworker] at hv
        cases hv
        exact hne (hsame j hj)
      exact ⟨v, z', (getElem?_set_ne hvw.symm).trans hv, hj⟩
  · intro id'
    have hshare : new.liveFor id' = item.liveFor id' := by
      rw [Slot.liveFor, Slot.liveFor, hid, Slot.live_of_used hused, Slot.live_of_used hold]
    exact (total_set_same _ hslot hshare).trans_le (hi.ids id')
  · have hshare : new.live = item.live := by
      rw [Slot.live_of_used hused, Slot.live_of_used hold]
    exact hi.outstanding.trans (total_set_same _ hslot hshare).symm
  · have hshare : new.bytes p = item.bytes p := by rw [Slot.bytes, Slot.bytes, hdesc]
    exact hi.bytes.trans (total_set_same _ hslot hshare).symm

theorem QueueInv.dequeued (hi : QueueInv cfg q) (hworker : q.workers[w]? = some .waiting)
    (hslot : q.slots[k]? = some item) (hqueued : item.state = .queued) :
    QueueInv cfg ((q.setSlot k { item with state := .running }).setWorker w (.dequeued k)) := by
  have hok := hi.slot k item hslot
  rw [SlotOk, hqueued] at hok
  obtain ⟨d, hd⟩ := Option.isSome_iff_exists.mp hok.1
  have hidle : item.state ≠ .running := by rw [hqueued]; simp
  refine hi.handed hslot hworker rfl rfl (by rw [hqueued]; simp) (by simp)
    (fun v z hz _ => hi.not_taken hslot hidle hz) (fun j hj => by cases hj) hok ?_
    (.inl ⟨rfl, rfl⟩)
  refine ⟨⟨d, { item with state := .running }, ?_, rfl, hd⟩, hi.worker w _ hworker⟩
  exact getElem?_set_self_of_some hslot _

theorem QueueInv.completed (hi : QueueInv cfg q)
    (hworker : q.workers[w]? = some (.loaded k payload error)) (hslot : q.slots[k]? = some item) :
    QueueInv cfg ((q.setSlot k
      { item with payload := payload, error := error, state := .ready }).setWorker w .waiting) := by
  obtain ⟨⟨d, ⟨item', hitem, hrun, hdesc⟩, hresult⟩, hout⟩ := hi.worker w _ hworker
  rw [hslot] at hitem
  cases hitem
  refine hi.handed hslot hworker rfl rfl (by rw [hrun]; simp) (by simp) ?_ ?_
    ⟨d, hdesc, hresult⟩ hout (.inr ⟨by simp, rfl⟩)
  · intro v z hz hne hk
    exact hne (hi.taken v w z _ k hz hworker hk rfl)
  · intro j hj
    cases hj
    rfl

theorem QueueInv.moved (hi : QueueInv cfg q) {y} (hworker : q.workers[w]? = some x)
    (hinv : Inv p cache) (hkept : LeasesKept q cache)
    (hcalls : ∀ v, v ≠ w → cache.calls.find? v = q.cache.calls.find? v) (hsame : y.slot? = x.slot?)
    (hy : WorkerOk { q.setWorker w y with cache := cache } w y) :
    QueueInv cfg { q.setWorker w y with cache := cache } := by
  -- who has which slot does not change
  have hback : ∀ (v : Nat) (z : Worker), (q.workers.set w y)[v]? = some z →
      ∃ z', q.workers[v]? = some z' ∧ z'.slot? = z.slot? := by
    intro v z hz
    rcases getElem?_set_cases hz with ⟨rfl, rfl⟩ | ⟨-, hv⟩
    · exact ⟨x, hworker, hsame.symm⟩
    · exact ⟨z, hv, rfl⟩
  refine ⟨hinv, hi.slots, ?_, fun k item h => hi.slots_kept hkept h, ?_, ?_, ?_, hi.ids,
    hi.outstanding, hi.bytes, hi.limit⟩
  · exact (length_set).trans hi.workers
  · intro v z hz
    rcases getElem?_set_cases hz with ⟨rfl, rfl⟩ | ⟨hne, hv⟩
    · exact hy
    · exact hi.worker_kept (u := { q.setWorker w y with cache := cache }) hkept hv (hcalls v hne)
        (fun _ _ _ h => h) (fun h => h)
  · intro v v' z z' j hz hz' hj hj'
    obtain ⟨x₁, h₁, hslot₁⟩ := hback v z hz
    obtain ⟨x₂, h₂, hslot₂⟩ := hback v' z' hz'
    exact hi.taken v v' x₁ x₂ j h₁ h₂ (hslot₁.trans hj) (hslot₂.trans hj')
  · intro j item hitem hrun
    obtain ⟨v, z, hv, hj⟩ := hi.running j item hitem hrun
    by_cases hvw : v = w
    · subst hvw
      rw [hworker] at hv
      cases hv
      exact ⟨v, y, getElem?_set_self_of_some hworker y, hsame.trans hj⟩
    · exact ⟨v, z, (getElem?_set_ne (Ne.symm hvw)).trans hv, hj⟩

theorem Turn.spec (hi : QueueInv cfg q) (h : Turn q w k a) (hs : Step p q.cache (a, o) cache) :
    ∃ x d, q.workers[w]? = some x ∧ x.slot? = some k ∧ q.Runs k d ∧ a.thread? = some w ∧
      q.cache.asked a = some d := by
  cases h with
  | enters worker runs => exact ⟨_, _, worker, rfl, runs, rfl, rfl⟩
  | resumes worker thread =>
    obtain ⟨d, c, hruns, hc, hdesc⟩ := hi.worker w _ worker
    exact ⟨_, d, worker, rfl, hruns, thread, hdesc ▸ asked_of_step hs thread hc⟩

theorem after_slot (k : Nat) (o : Outcome) : (Worker.after k o).slot? = some k := by
  cases o <;> rfl

theorem after_ok (hi : QueueInv cfg q) (h : Turn q w k a) (hs : Step p q.cache (a, o) cache) :
    WorkerOk { q.setWorker w (.after k o) with cache := cache } w (.after k o) := by
  obtain ⟨x, d, -, -, hruns, hthread, hasked⟩ := h.spec hi hs
  have hchange := (RamCache.step_cases hi.cache hs).change hi.cache
  have hcall := hchange.calls
  rcases hcall.ends hthread with hrun | ⟨i, hleased⟩ | ⟨error, hthrew⟩
  · cases hrun
    obtain ⟨c, hc, hdesc⟩ := hcall.running hthread rfl hasked
    exact ⟨d, c, hruns, hc, hdesc⟩
  · cases hleased
    obtain ⟨y, hy, hd⟩ := hchange.leases.leased rfl hasked
    exact ⟨⟨d, hruns, .inl ⟨i, y, rfl, rfl, hy, hd⟩⟩, hcall.out hthread (by simp)⟩
  · cases hthrew
    exact ⟨⟨d, hruns, .inr ⟨error, rfl, rfl⟩⟩, hcall.out hthread (by simp)⟩

theorem QueueInv.worked (hi : QueueInv cfg q)
    (h : Turn q w k a) (hs : Step p q.cache (a, o) cache) :
    QueueInv cfg { q.setWorker w (.after k o) with cache := cache } := by
  obtain ⟨x, d, hworker, hslot, -, hthread, -⟩ := h.spec hi hs
  have hkept : LeasesKept q cache := by
    refine .of_step hi.cache hs fun i ha => ?_
    rw [ha] at hthread; cases hthread
  refine hi.moved hworker (hi.cache.step hs) hkept (fun v hv => ?_)
    ((after_slot k o).trans hslot.symm) (after_ok hi h hs)
  refine ((RamCache.step_cases hi.cache hs).change hi.cache).calls.other fun ht => hv ?_
  rw [hthread] at ht
  exact (Option.some.inj ht).symm

theorem QueueInv.exited (hi : QueueInv cfg q) (hworker : q.workers[w]? = some .waiting)
    (hstop : q.stopping = true) : QueueInv cfg (q.setWorker w .stopped) :=
  hi.moved hworker hi.cache (.refl q) (fun _ _ => rfl) rfl ⟨hi.worker w _ hworker, hstop⟩

theorem QueueInv.stopped (hi : QueueInv cfg q) : QueueInv cfg q.stop := by
  refine ⟨hi.cache, hi.slots, hi.workers, hi.slot, ?_, hi.taken, hi.running, hi.ids,
    hi.outstanding, hi.bytes, hi.limit⟩
  intro w x hw
  exact hi.worker_kept (u := q.stop) (.refl q) hw rfl (fun _ _ _ h => h) (fun _ => rfl)

/-- **A step keeps the invariant.** -/
theorem QueueInv.step {act} (hi : QueueInv cfg q) (h : QueueStep cfg q act u) : QueueInv cfg u := by
  cases step_cases hi h with
  | declined quiet => exact hi
  | submitted slot free fresh going fits tried => exact hi.submitted slot free fresh fits tried
  | delivered slot ready => exact hi.delivered slot ready
  | dequeued worker slot queued => exact hi.dequeued worker slot queued
  | worked turn step => exact hi.worked turn step
  | completed worker slot => exact hi.completed worker slot
  | exited worker stopping => exact hi.exited worker stopping
  | stopped => exact hi.stopped
  | @other a cache o foreign step =>
    have hkept : LeasesKept q cache :=
      .of_step hi.cache step fun i ha => foreign.2 i (by rw [ha]; rfl)
    refine hi.cache_step (hi.cache.step step) hkept ?_
    intro w hw
    refine ((RamCache.step_cases hi.cache step).change hi.cache).calls.other fun ht => ?_
    exact absurd (foreign.1 w ht) (Nat.not_le.mpr hw)

theorem QueueInv.initial (h : QueueInit cfg q) : QueueInv cfg q := by
  obtain ⟨cache, hreached, hout, rfl⟩ := h
  have hslot : ∀ (k : Nat) item, (replicate cfg.requests ({} : Slot))[k]? = some item →
      item = {} := by
    intro k item h
    exact eq_of_mem_replicate (mem_of_getElem? h)
  have hworker : ∀ (w : Nat) x, (replicate cfg.workers Worker.waiting)[w]? = some x →
      w < cfg.workers ∧ x = .waiting := by
    intro w x h
    obtain ⟨hlt, -⟩ := List.getElem?_eq_some_iff.mp h
    exact ⟨by simpa using hlt, eq_of_mem_replicate (mem_of_getElem? h)⟩
  have hzero : ∀ f : Slot → Nat, f {} = 0 → total f (replicate cfg.requests {}) = 0 := by
    intro f hf
    exact total_eq_zero fun item hitem => eq_of_mem_replicate hitem ▸ hf
  refine ⟨hreached.inv, length_replicate, length_replicate, ?_, ?_, ?_, ?_, ?_, ?_, ?_,
    Nat.zero_le _⟩
  · intro k item h
    rw [hslot k item h]
    exact ⟨rfl, rfl, rfl⟩
  · intro w x h
    obtain ⟨hlt, rfl⟩ := hworker w x h
    exact hout w hlt
  · intro w w' x x' k h _ hk _
    rw [(hworker w x h).2] at hk
    cases hk
  · intro k item h hrun
    rw [hslot k item h] at hrun
    cases hrun
  · intro id
    exact (hzero _ (ite_self _)).trans_le (Nat.zero_le 1)
  · exact (hzero _ rfl).symm
  · exact (hzero _ rfl).symm

/-- **The invariant holds in every state of every run, and around each of its steps.** -/
theorem QueueInv.run {q₀ evs} (hinit : QueueInit cfg q₀) (run : Trace (QueueStep cfg) q₀ evs q) :
    QueueInv cfg q ∧ ∀ ev ∈ evs, QueueInv cfg ev.before ∧ QueueInv cfg ev.after ∧
      QueueStep cfg ev.before ev.label ev.after :=
  run.invariant (fun _ _ _ hi h => hi.step h) (.initial hinit)

end ExpertStreaming.LoadQueue
