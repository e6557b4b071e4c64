import ExpertStreaming.LoadQueue.Delivery
import ExpertStreaming.RamCache.Readmission

/-! # The queue over its cache

What the queue and the cache promise together: the bytes behind a result, and that both can
come to rest from whatever state they are in.
-/
namespace ExpertStreaming.LoadQueue
open Lib RamCache List

variable {p : Params} {cfg : QueueConfig p} {q u : Queue} {i : LeaseId}

/-- A lease stays until a thread outside the queue releases it. -/
theorem QueueInv.lease_kept {a x} (hi : QueueInv cfg q) (h : QueueStep cfg q a u)
    (hx : q.cache.leases.find? i = some x) (hne : a.1 ≠ .other (.release i)) :
    u.cache.leases.find? i = some x := by
  have hcache : ∀ {b o cache}, Step p q.cache (b, o) cache → b ≠ .release i →
      cache.leases.find? i = some x := fun hs hb =>
    (RamCache.step_cases hi.cache hs).lease_kept hi.cache hx hb
  cases step_cases hi h with
  | declined | delivered | dequeued | completed | exited | stopped => exact hx
  | submitted _ _ _ _ _ tried =>
    exact hcache (b := .tryAcquire (some _)) (congrArg some tried) (by simp)
  | worked turn step =>
    refine hcache step ?_
    rintro rfl
    obtain ⟨_, _, _, _, _, hthread, _⟩ := turn.spec hi step
    cases hthread
  | other foreign step => exact hcache step fun hb => hne (congrArg QueueAction.other hb)

/-- **What a caller of the queue reads is what it asked for**: the lease that `next` returns is
for the descriptor submitted under its id, and until it is released the bytes behind it are the
bytes of the sources, whatever the queue and other threads do meanwhile. -/
theorem delivered_leases_hold_source_bytes {q₀ : Queue} {pre post : List QueueEvent} {ret wait id}
    {error} (hinit : QueueInit cfg q₀) (run : Trace (QueueStep cfg) q₀ (pre ++ ret :: post) q)
    (hret : ret.label = (.next wait, .completed id (some i) error))
    (hkept : ∀ ev ∈ post, ev.label.1 ≠ .other (.release i)) :
    ∃ d x off, (∃ sub ∈ pre, sub.label = (.trySubmit id (some d), .accepted)) ∧
      q.cache.leases.find? i = some x ∧ x.desc = d ∧ (q.cache.heap x.entry).data = some off ∧
      q.cache.arena.read off (p.descriptor d).bytes = RamCache.payload p d := by
  obtain ⟨t, hpre, hrest⟩ := run.split
  cases hrest with
  | @cons _ a t' _ _ hstep hpost =>
    obtain rfl : a = _ := hret
    have hi := (QueueInv.run hinit hpre).1
    have hreturns : returns id (.next wait, .completed id (some i) error) = true := by
      simp [returns]
    obtain ⟨_, sub, mid, d, rfl, hsettles⟩ :
        ∃ pre' sub mid d, pre = pre' ++ sub :: mid ∧ Settles p id d sub mid ⟨t, _, t'⟩ :=
      settled_of_returned hinit hpre hstep hreturns
    obtain ⟨_, _, _, hlabel, hresult, -⟩ := hsettles.result
    cases hlabel
    rcases hresult with ⟨j, x, hj, -, hx, hdesc⟩ | ⟨_, hj, -⟩
    · cases hj
      have hnext := hi.lease_kept hstep hx (by simp)
      -- the lease survives every later step
      obtain ⟨⟨hq, hlater⟩, -⟩ := hpost.invariant_of
        (I := fun q => QueueInv cfg q ∧ q.cache.leases.find? i = some x)
        (C := fun ev => ev.label.1 ≠ .other (.release i))
        (fun _ _ _ h hs hne => ⟨h.1.step hs, h.1.lease_kept hs h.2 hne⟩) hkept
        ⟨hi.step hstep, hnext⟩
      obtain ⟨off, hdata, hread⟩ := hq.cache.lease_payload hlater
      refine ⟨d, x, off, ⟨sub, by simp, hsettles.accepted⟩, hlater, hdesc, hdata, ?_⟩
      rw [← hdesc]
      exact hread
    · cases hj

theorem queueInit_tinyQueue :
    QueueInit tinyQueue (.initial tinyQueue (.initial zeroed zeroed)) :=
  ⟨_, .of_init ⟨zeroed, zeroed, rfl⟩, fun _ _ => rfl, rfl⟩

theorem tinyQueue_delivers_source_bytes :
    ∃ evs q u, execute (queueStep tinyQueue) (.initial tinyQueue (.initial zeroed zeroed))
        (twoRequests.take 8) = some (evs, q) ∧
      queueStep tinyQueue q (.next true) = some (u, .completed 7 (some 0) none) ∧
      ∃ d x off, (∃ sub ∈ evs, sub.label = (.trySubmit 7 (some d), .accepted)) ∧
        u.cache.leases.find? 0 = some x ∧ x.desc = d ∧ (u.cache.heap x.entry).data = some off ∧
        u.cache.arena.read off 1 = RamCache.payload (tinyCache true) d := by
  have hlast : ((execute (queueStep tinyQueue) (.initial tinyQueue (.initial zeroed zeroed))
      (twoRequests.take 8)).bind fun r => (queueStep tinyQueue r.2 (.next true)).map Prod.snd) =
        some (.completed 7 (some 0) none) := by
    decide +kernel
  obtain ⟨⟨evs, q⟩, hexec, hmap⟩ := Option.bind_eq_some_iff.mp hlast
  obtain ⟨⟨u, o⟩, hstep, rfl⟩ := Option.map_eq_some_iff.mp hmap
  have hs : QueueStep tinyQueue q (.next true, .completed 7 (some 0) none) u := hstep
  exact ⟨evs, q, u, hexec, hstep, delivered_leases_hold_source_bytes queueInit_tinyQueue
    ((execute_trace hexec).snoc hs) rfl (by simp)⟩

/-! ## Coming to rest -/

/-- Nothing is under way, in the queue or in the cache. -/
structure AtRest (q : Queue) : Prop where
  slots : ∀ item ∈ q.slots, item.state = .free
  outstanding : q.stats.outstanding = 0
  calls : ∀ t, q.cache.calls.find? t = none
  loads : q.cache.pending.isEmpty = true
  bytes : q.cache.stats.reservedBytes = 0 ∧ q.cache.stats.stagingUsedBytes = 0

/-- **From every reachable state the queue can come to rest.** Until it is stopped, serving what
has been submitted leads to a state without a request, a call of the cache, a load in flight, a
reservation or a byte in staging, whatever other threads are doing. -/
theorem queue_comes_to_rest {q₀ evs} (hinit : QueueInit cfg q₀)
    (run : Trace (QueueStep cfg) q₀ evs q) (hgoing : q.stopping = false) :
    ∃ u, Serves cfg q u ∧ AtRest u := by
  have hi := (QueueInv.run hinit run).1
  obtain ⟨t, hserves, hfree⟩ := drain_queue _ hi hgoing rfl
  -- calls of threads outside the pool may still be in progress
  obtain ⟨cache, hon, hnone⟩ := drain_all _ (hserves.inv hi).cache rfl
  obtain ⟨u, hserves', rfl, hadv⟩ := carry_on_all (hserves.inv hi) hon
  have hall := hserves.trans hserves'
  have hu : QueueInv cfg u := Serves.inv hall hi
  have hslots : ∀ item ∈ u.slots, item.state = .free := hadv.slots ▸ hfree
  have hloads := hu.cache.idle_of_no_calls hnone
  have hzero : u.cache.pending.sumBy (fun _ l => u.cache.bytesOf p l) = 0 :=
    OrdMap.sumBy_eq_zero fun k l hl => by rw [OrdMap.isEmpty_iff.mp hloads] at hl; cases hl
  refine ⟨u, hall, hslots, ?_, hnone, hloads, hu.cache.counters.reserved.trans hzero,
    hu.cache.counters.staging.trans hzero⟩
  rw [hu.outstanding]
  exact total_eq_zero fun item hitem => if_pos (hslots item hitem)

/-- A worker's load holds the staging byte that another thread waits for. -/
def busyQueue : List QueueAction :=
  [.trySubmit 7 (some 0), .dequeue 0, .work 0 (.acquire 0 (some 0)), .other (.acquire 5 (some 1))]

theorem busyQueue_comes_to_rest :
    ∃ evs q, execute (queueStep tinyQueue) (.initial tinyQueue (.initial zeroed zeroed))
        busyQueue = some (evs, q) ∧
      (q.cache.stats.stagingUsedBytes = 1 ∧ q.cache.calls.contains 5 = true) ∧
      ∃ u, Serves tinyQueue q u ∧ AtRest u := by
  have hrun : ((execute (queueStep tinyQueue) (.initial tinyQueue (.initial zeroed zeroed))
      busyQueue).any fun r => decide ((r.2.cache.stats.stagingUsedBytes = 1 ∧
        r.2.cache.calls.contains 5 = true) ∧ r.2.stopping = false)) = true := by
    decide +kernel
  obtain ⟨⟨evs, q⟩, hexec, hall⟩ := (Option.any_eq_true _ _).mp hrun
  obtain ⟨hbusy, hgoing⟩ := of_decide_eq_true hall
  exact ⟨evs, q, hexec, hbusy,
    queue_comes_to_rest queueInit_tinyQueue (execute_trace hexec) hgoing⟩

end ExpertStreaming.LoadQueue
