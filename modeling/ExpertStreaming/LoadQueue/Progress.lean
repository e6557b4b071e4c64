import ExpertStreaming.LoadQueue.Invariant
import ExpertStreaming.RamCache.Drain

/-! # The load queue: every request can be finished

As long as the queue has not been stopped, workers that carry on and a caller that
keeps asking for results empty it: no request is stuck behind another. The cache
calls of other threads may have to finish too, since a worker can be waiting for a
load of theirs; nothing else is asked of them.
-/
namespace ExpertStreaming.LoadQueue
open Lib RamCache

variable {p : Params} {cfg : QueueConfig p} {q u : Queue} {k w : Nat} {d : DescId}

def QueueAction.serves : QueueAction → Bool
  | .next _ | .dequeue _ | .work _ _ | .complete _ => true
  | .other a => a.carriesOn
  | .trySubmit _ _ | .exit _ | .stop => false

abbrev Serves (cfg : QueueConfig p) (q u : Queue) : Prop :=
  Leads (QueueStep cfg) (fun label => label.1.serves = true) q u

theorem Serves.step {a o} (h : queueStep cfg q a = some (u, o)) (ha : a.serves = true) :
    Serves cfg q u := by
  have hs : QueueStep cfg q (a, o) u := h
  exact Leads.of_step hs ha

theorem Serves.inv (h : Serves cfg q u) (hi : QueueInv cfg q) : QueueInv cfg u :=
  h.invariant (fun _ _ _ hi hs _ => hi.step hs) hi

/-! ## Cache calls inside the queue -/

def Worker.Advances (x y : Worker) : Prop :=
  y = x ∨ ∃ k payload error, x = .loading k ∧ y = .loaded k payload error

/-- Only calls inside `acquire` have moved. -/
structure Advanced (q u : Queue) : Prop where
  slots : u.slots = q.slots
  stats : u.stats = q.stats
  stopping : u.stopping = q.stopping
  worker : ∀ (w : Nat) x, q.workers[w]? = some x → ∃ y, u.workers[w]? = some y ∧ x.Advances y

theorem Advanced.refl (q : Queue) : Advanced q q := ⟨rfl, rfl, rfl, fun _ x h => ⟨x, h, .inl rfl⟩⟩

theorem Advanced.trans {v} (h : Advanced q u) (h' : Advanced u v) : Advanced q v := by
  refine ⟨h'.slots.trans h.slots, h'.stats.trans h.stats, h'.stopping.trans h.stopping, ?_⟩
  intro w x hx
  obtain ⟨y, hy, hxy⟩ := h.worker w x hx
  obtain ⟨z, hz, hyz⟩ := h'.worker w y hy
  refine ⟨z, hz, ?_⟩
  rcases hxy with rfl | ⟨k, payload, error, rfl, rfl⟩
  · exact hyz
  · rcases hyz with rfl | ⟨j, payload', error', hload, -⟩
    · exact .inr ⟨k, payload, error, rfl, rfl⟩
    · cases hload

theorem Worker.advances_after (k : Nat) (o : Outcome) : (Worker.loading k).Advances (.after k o) := by
  cases o with
  | running => exact .inl rfl
  | leased | threw | empty | erased | cleared | released => exact .inr ⟨k, _, _, rfl, rfl⟩

theorem WorkerOk.loading {x call} (h : WorkerOk q w x) (hc : q.cache.calls.find? w = some call) :
    ∃ k, x = .loading k := by
  have hsome : q.cache.calls.find? w ≠ none := by rw [hc]; simp
  cases x with
  | loading k => exact ⟨k, rfl⟩
  | waiting => exact absurd h hsome
  | dequeued k => exact absurd h.2 hsome
  | loaded k payload error => exact absurd h.2 hsome
  | stopped => exact absurd h.1 hsome

theorem carriesOn_call {a o s c} (ha : a.carriesOn = true) (h : Step p s (a, o) c) :
    ∃ t call, a.thread? = some t ∧ s.calls.find? t = some call := by
  have hcall : ∀ t, a.thread? = some t → s.resume p a = some (c, o) →
      ∃ call, s.calls.find? t = some call := by
    intro t ht hr
    cases hc : s.calls.find? t with
    | some call => exact ⟨call, rfl⟩
    | none =>
      cases a with
      | acquire | readThrows | tryAcquire | erase | clear | release => cases ha
      | wake | join | readExtent | finishRead | copyByte | finishCopy =>
        cases ht
        simp only [State.resume, hc] at hr
        cases hr
  cases a with
  | acquire | readThrows | tryAcquire | erase | clear | release => cases ha
  | wake t | join t | readExtent t | finishRead t | copyByte t | finishCopy t =>
    obtain ⟨call, hc⟩ := hcall t rfl h
    exact ⟨t, call, rfl, hc⟩

theorem carry_on {a o cache} (hi : QueueInv cfg q) (ha : a.carriesOn = true)
    (h : Step p q.cache (a, o) cache) :
    ∃ u, Serves cfg q u ∧ u.cache = cache ∧ Advanced q u := by
  obtain ⟨t, call, ht, hc⟩ := carriesOn_call ha h
  have hstep : step p q.cache a = some (cache, o) := h
  by_cases hlt : t < cfg.workers
  · obtain ⟨x, hx⟩ : ∃ x, q.workers[t]? = some x :=
      ⟨_, List.getElem?_eq_getElem (hi.workers ▸ hlt)⟩
    obtain ⟨k, rfl⟩ := (hi.worker t x hx).loading hc
    have hwork : queueStep cfg q (.work t a) =
        some ({ q.setWorker t (.after k o) with cache := cache }, .cached o) := by
      simp only [queueStep, Queue.work, Queue.mayWork, hx, ht, if_true, hstep, Option.map_some]
    refine ⟨_, Serves.step hwork rfl, rfl, rfl, rfl, rfl, ?_⟩
    intro v y hv
    by_cases hvt : v = t
    · subst hvt
      rw [hx] at hv
      cases hv
      exact ⟨_, getElem?_set_self_of_some hx _, Worker.advances_after k o⟩
    · exact ⟨y, (List.getElem?_set_ne (Ne.symm hvt)).trans hv, .inl rfl⟩
  · have hforeign : Foreign cfg q a := by
      refine ⟨fun t' ht' => ?_, fun i hrel => ?_⟩
      · rw [Option.mem_def, ht] at ht'
        cases ht'
        exact Nat.not_lt.mp hlt
      · cases a with
        | release => cases ha
        | acquire | readThrows | tryAcquire | erase | clear | wake | join | readExtent
        | finishRead | copyByte | finishCopy => cases hrel
    have hother : queueStep cfg q (.other a) = some ({ q with cache := cache }, .cached o) := by
      simp only [queueStep, if_pos hforeign, hstep, Option.map_some]
    exact ⟨_, Serves.step hother ha, rfl, rfl, rfl, rfl, fun _ y hv => ⟨y, hv, .inl rfl⟩⟩

theorem carry_on_all {cache} (hi : QueueInv cfg q) (h : CarriesOn p q.cache cache) :
    ∃ u, Serves cfg q u ∧ u.cache = cache ∧ Advanced q u := by
  obtain ⟨evs, hrun, hall⟩ := h
  generalize hs : q.cache = s at hrun
  induction hrun generalizing q with
  | nil s => exact ⟨q, .refl q, hs, .refl q⟩
  | @cons s a s' evs' t hstep _ ih =>
    subst hs
    have hfirst : a.1.carriesOn = true := hall ⟨_, a, s'⟩ List.mem_cons_self
    obtain ⟨u, hserves, hcache, hadv⟩ := carry_on (o := a.2) hi hfirst hstep
    obtain ⟨v, hserves', hcache', hadv'⟩ :=
      ih (hserves.inv hi) (fun ev hev => hall ev (List.mem_cons_of_mem _ hev)) hcache
    exact ⟨v, hserves.trans hserves', hcache', hadv.trans hadv'⟩

/-! ## One request at a time -/

/-- The queue can serve its requests until one is ready, and the rest is as before. -/
def ReadyLater (cfg : QueueConfig p) (q : Queue) : Prop :=
  ∃ (u : Queue) (k : Nat) (item : Slot), Serves cfg q u ∧ u.slots[k]? = some item ∧ item.state = .ready ∧
    u.stats = q.stats ∧ u.stopping = q.stopping

theorem ReadyLater.after (h : Serves cfg q u) (hstats : u.stats = q.stats)
    (hstop : u.stopping = q.stopping) (hu : ReadyLater cfg u) : ReadyLater cfg q := by
  obtain ⟨v, k, item, hserves, hitem, hready, hstats', hstop'⟩ := hu
  exact ⟨v, k, item, h.trans hserves, hitem, hready, hstats'.trans hstats, hstop'.trans hstop⟩

theorem loaded_ready {payload error} (hi : QueueInv cfg q)
    (hw : q.workers[w]? = some (.loaded k payload error)) : ReadyLater cfg q := by
  obtain ⟨⟨d, ⟨item, hitem, hrun, -⟩, -⟩, -⟩ := hi.worker w _ hw
  have hstep : queueStep cfg q (.complete w) = some
      ({ (q.setSlot k { item with payload := payload, error := error, state := .ready }).setWorker w
          .waiting with cache := dropLease q.cache item.payload }, .moved) := by
    simp only [queueStep, Queue.complete, hw, hitem, Option.map_some]
  exact ⟨_, k, _, Serves.step hstep rfl, getElem?_set_self_of_some hitem _, rfl, rfl, rfl⟩

theorem loading_ready (hi : QueueInv cfg q) (hw : q.workers[w]? = some (.loading k)) :
    ReadyLater cfg q := by
  obtain ⟨cache, hon, hnone⟩ := drain_all _ hi.cache rfl
  obtain ⟨u, hserves, hcache, hadv⟩ := carry_on_all hi hon
  have hu := hserves.inv hi
  obtain ⟨y, hy, hadvances⟩ := hadv.worker w _ hw
  refine .after hserves hadv.stats hadv.stopping ?_
  rcases hadvances with rfl | ⟨j, payload, error, hload, rfl⟩
  · -- no call is left, so the worker is not inside one
    obtain ⟨d, c, -, hc, -⟩ := hu.worker w _ hy
    rw [hcache, hnone] at hc
    cases hc
  · exact loaded_ready hu hy

theorem dequeued_ready (hi : QueueInv cfg q) (hw : q.workers[w]? = some (.dequeued k)) :
    ReadyLater cfg q := by
  obtain ⟨⟨d, ⟨item, hitem, hrun, hdesc⟩⟩, hout⟩ := hi.worker w _ hw
  have hmay : q.mayWork w (.acquire w (some d)) = some k := by
    simp only [Queue.mayWork, hw, hitem, Option.bind_some, hdesc, if_true]
  have hstep : step p q.cache (.acquire w (some d)) = some (q.cache.acquire p w (some d)) := by
    simp only [step, hout]
  generalize q.cache.acquire p w (some d) = r at hstep
  have hwork : queueStep cfg q (.work w (.acquire w (some d))) =
      some ({ q.setWorker w (.after k r.2) with cache := r.1 }, .cached r.2) := by
    simp only [queueStep, Queue.work, hmay, hstep, Option.map_some]
  have hserves := Serves.step hwork rfl
  refine .after hserves rfl rfl ?_
  have hworker : (q.workers.set w (.after k r.2))[w]? = some (.after k r.2) :=
    getElem?_set_self_of_some hw _
  rcases Worker.advances_after k r.2 with hload | ⟨j, payload, error, -, hloaded⟩
  · exact loading_ready (hserves.inv hi) (hworker.trans (congrArg some hload))
  · exact loaded_ready (hserves.inv hi) (hworker.trans (congrArg some hloaded))

theorem used_ready {item} (hi : QueueInv cfg q) (hgoing : q.stopping = false)
    (hitem : q.slots[k]? = some item) (hused : item.state ≠ .free) : ReadyLater cfg q := by
  cases hphase : item.state with
  | free => exact absurd hphase hused
  | ready => exact ⟨q, k, item, .refl q, hitem, hphase, rfl, rfl⟩
  | running =>
    obtain ⟨w, x, hw, hk⟩ := hi.running k item hitem hphase
    cases x with
    | waiting | stopped => cases hk
    | dequeued j => exact dequeued_ready hi hw
    | loading j => exact loading_ready hi hw
    | loaded j payload error => exact loaded_ready hi hw
  | queued =>
    -- the first worker is busy with a request of its own, or it takes this one
    obtain ⟨x, hw⟩ : ∃ x, q.workers[0]? = some x :=
      ⟨_, List.getElem?_eq_getElem (hi.workers ▸ cfg.workers_pos)⟩
    cases x with
    | dequeued j => exact dequeued_ready hi hw
    | loading j => exact loading_ready hi hw
    | loaded j payload error => exact loaded_ready hi hw
    | stopped => rw [(hi.worker 0 _ hw).2] at hgoing; cases hgoing
    | waiting =>
      obtain ⟨j, hj⟩ := firstIn_isSome hitem hphase
      obtain ⟨found, hfound, -⟩ := firstIn_spec hj
      have hstep : queueStep cfg q (.dequeue 0) = some
          ((q.setSlot j { found with state := .running }).setWorker 0 (.dequeued j), .moved) := by
        simp only [queueStep, Queue.dequeue, hw, hj, hgoing, hfound, Option.map_some]
        rfl
      have hserves := Serves.step hstep rfl
      have hworker : (q.workers.set 0 (.dequeued j))[0]? = some (.dequeued j) :=
        getElem?_set_self_of_some hw _
      exact .after hserves rfl rfl (dequeued_ready (hserves.inv hi) hworker)

theorem take_one {item} (hi : QueueInv cfg q) (hgoing : q.stopping = false)
    (hitem : q.slots[k]? = some item) (hused : item.state ≠ .free) :
    ∃ u, Serves cfg q u ∧ u.stopping = false ∧ u.stats.outstanding + 1 = q.stats.outstanding := by
  obtain ⟨u, j, x, hserves, hx, hready, hstats, hstop⟩ := used_ready hi hgoing hitem hused
  obtain ⟨i, hi'⟩ := firstIn_isSome hx hready
  obtain ⟨found, hfound, hfoundReady⟩ := firstIn_spec hi'
  have hnext : u.next p = (u.delivered p i found, .completed found.id found.payload found.error) := by
    simp only [Queue.next, hi', hfound]
    rfl
  have hresult : u.hasResult = true := by
    simp only [Queue.hasResult, hi', Option.isSome_some, or_true, decide_true]
  have hstep : queueStep cfg u (.next true) = some (u.next p) := by
    simp only [queueStep, hresult, Bool.true_eq_false, and_false, if_false]
  rw [hnext] at hstep
  refine ⟨_, hserves.trans (Serves.step hstep rfl), hstop.trans hgoing, ?_⟩
  have hcount := (hserves.inv hi).outstanding
  have hle := le_total Slot.live hfound
  rw [Slot.live_of_used (by rw [hfoundReady]; simp), ← hcount] at hle
  show u64Sub u.stats.outstanding 1 + 1 = q.stats.outstanding
  rw [u64Sub_of_le hle, ← hstats, Nat.sub_add_cancel hle]

/-- **A queue that has not been stopped can be emptied.** -/
theorem drain_queue (n : Nat) : ∀ {q : Queue}, QueueInv cfg q → q.stopping = false →
    q.stats.outstanding = n → ∃ u, Serves cfg q u ∧ ∀ item ∈ u.slots, item.state = .free := by
  induction n with
  | zero =>
    intro q hi hgoing hn
    refine ⟨q, .refl q, fun item hitem => ?_⟩
    obtain ⟨k, hk⟩ := List.mem_iff_getElem?.mp hitem
    by_contra hused
    have hle := le_total Slot.live hk
    rw [Slot.live_of_used hused, ← hi.outstanding] at hle
    omega
  | succ n ih =>
    intro q hi hgoing hn
    by_cases hall : ∀ item ∈ q.slots, item.state = .free
    · exact ⟨q, .refl q, hall⟩
    · push Not at hall
      obtain ⟨item, hitem, hused⟩ := hall
      obtain ⟨k, hk⟩ := List.mem_iff_getElem?.mp hitem
      obtain ⟨u, hserves, hgoing', hcount⟩ := take_one hi hgoing hk hused
      obtain ⟨v, hserves', hfree⟩ := ih (hserves.inv hi) hgoing' (by omega)
      exact ⟨v, hserves.trans hserves', hfree⟩

end ExpertStreaming.LoadQueue
