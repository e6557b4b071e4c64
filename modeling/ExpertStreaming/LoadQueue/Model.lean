import ExpertStreaming.Lib.Slots
import ExpertStreaming.RamCache.Leases

/-! # The load queue

A fixed pool of request slots and worker threads in front of the RAM cache. The
queue's mutex sections are steps of their own; between them a worker runs
`acquire` on the shared cache, one cache step at a time, while other threads use
the cache as well. Worker `w` is the cache's thread `w`.
-/
namespace ExpertStreaming.LoadQueue
open Lib RamCache

/-- The arguments the constructor accepts. -/
structure QueueConfig (p : Params) where
  workers : Nat
  requests : Nat
  byteLimit : Nat
  workers_pos : 0 < workers
  workers_le : workers ≤ 8
  requests_ge : workers ≤ requests
  requests_le : requests ≤ 64
  bytes_pos : 0 < byteLimit
  bytes_le : byteLimit ≤ p.config.stagingBytes

inductive SlotPhase where
  | free | queued | running | ready
  deriving DecidableEq

/-- A request slot. A null `exception_ptr`, an empty lease and a null descriptor
are `none`. -/
structure Slot where
  state : SlotPhase := .free
  id : Nat := 0
  desc : Option DescId := none
  payload : Option LeaseId := none
  error : Option CacheError := none
  deriving DecidableEq

structure QueueStats where
  submitted : Nat := 0
  readyHits : Nat := 0
  outstanding : Nat := 0
  outstandingBytes : Nat := 0
  peakOutstandingBytes : Nat := 0

/-- Where a worker thread is, between its mutex sections. -/
inductive Worker where
  /-- At `work_changed_.wait`. -/
  | waiting
  /-- It has marked the slot running and is about to call `acquire`. -/
  | dequeued (slot : Nat)
  /-- Inside `cache_.acquire`. -/
  | loading (slot : Nat)
  /-- `acquire` has returned or thrown; the mutex is not yet held again. -/
  | loaded (slot : Nat) (payload : Option LeaseId) (error : Option CacheError)
  | stopped
  deriving DecidableEq

def Worker.slot? : Worker → Option Nat
  | .waiting | .stopped => none
  | .dequeued k | .loading k | .loaded k _ _ => some k

structure Queue where
  cache : State
  slots : List Slot
  stats : QueueStats
  stopping : Bool
  workers : List Worker

def Queue.initial {p : Params} (cfg : QueueConfig p) (cache : State) : Queue where
  cache := cache
  slots := List.replicate cfg.requests {}
  stats := {}
  stopping := false
  workers := List.replicate cfg.workers .waiting

inductive QueueError where
  | nullDescriptor
  | idOutstanding
  deriving DecidableEq

inductive QueueOutcome where
  /-- `try_submit` returned true. -/
  | accepted
  /-- `try_submit` returned false. -/
  | refused
  | threw (error : QueueError)
  /-- `next` returned true with this completion. -/
  | completed (id : Nat) (payload : Option LeaseId) (error : Option CacheError)
  /-- `next` returned false. -/
  | nothing
  /-- A section of a worker or of `stop` that returns nothing. -/
  | moved
  /-- A step of the cache. -/
  | cached (outcome : Outcome)
  deriving DecidableEq

variable (q : Queue)

def Queue.setSlot (k : Nat) (slot : Slot) : Queue :=
  { q with slots := q.slots.set k slot }

def Queue.setWorker (w : Nat) (worker : Worker) : Queue :=
  { q with workers := q.workers.set w worker }

def dropLease (cache : State) : Option LeaseId → State
  | none => cache
  | some i =>
    match cache.leases.find? i with
    | none => cache
    | some l => cache.release i l

/-! ## `try_submit` -/

/-- The first free slot, or `none` when it throws because a slot in use has the same id. -/
def findAvailable (id : Nat) : List Slot → Nat → Option Nat → Option (Option Nat)
  | [], _, available => some available
  | item :: rest, k, available =>
    if item.state = .free then
      findAvailable id rest (k + 1) (available.or (some k))
    else if item.id = id then none
    else findAvailable id rest (k + 1) available

variable (p : Params)

def Queue.admitTo (q : Queue) (k : Nat) (item : Slot) (id : Nat) (d : DescId) : Queue :=
  let bytes := (p.descriptor d).bytes
  { q.setSlot k { item with id := id, desc := some d } with
    stats := { q.stats with
      submitted := q.stats.submitted + 1
      outstanding := q.stats.outstanding + 1
      outstandingBytes := q.stats.outstandingBytes + bytes
      peakOutstandingBytes := max q.stats.peakOutstandingBytes
        (q.stats.outstandingBytes + bytes) } }

/-- The slot and the cache after `payload = cache_.try_acquire(desc)`, or after it
has thrown. -/
def lookedUp (item : Slot) : State × Outcome → Slot × State
  | (cache, .leased i) => ({ item with payload := some i }, dropLease cache item.payload)
  | (cache, .threw error) => ({ item with error := some error }, cache)
  | (cache, _) => ({ item with payload := none }, dropLease cache item.payload)

/-- The rest of the admission: a hit or an error completes the request at once. -/
def Queue.lookUp (q : Queue) (k : Nat) (item : Slot) (d : DescId) : Queue :=
  let (item, cache) := lookedUp item (q.cache.tryAcquire p (some d))
  if item.payload.isSome ∨ item.error.isSome then
    { q.setSlot k { item with state := .ready } with
      cache := cache
      stats := { q.stats with
        readyHits := q.stats.readyHits + if item.payload.isSome then 1 else 0 } }
  else { q.setSlot k { item with state := .queued } with cache := cache }

def Queue.trySubmit {p : Params} (cfg : QueueConfig p) (q : Queue) (id : Nat)
    (value : Option DescId) : Queue × QueueOutcome :=
  match value with
  | none => (q, .threw .nullDescriptor)
  | some d =>
    match findAvailable id q.slots 0 none with
    | none => (q, .threw .idOutstanding)
    | some none => (q, .refused)
    | some (some k) =>
      match q.slots[k]? with
      | none => (q, .refused)
      | some item =>
        if q.stopping ∨ (p.descriptor d).bytes > u64Sub cfg.byteLimit q.stats.outstandingBytes then
          (q, .refused)
        else
          ((q.admitTo p k item id d).lookUp p k { item with id := id, desc := some d } d, .accepted)

/-! ## `next` -/

def Queue.firstIn (phase : SlotPhase) : Option Nat :=
  q.slots.findIdx? fun item => item.state = phase

def Queue.hasResult : Bool :=
  q.stats.outstanding = 0 ∨ (q.firstIn .ready).isSome

/-- The section after the wait. The moved-from payload and error are null. -/
def Queue.next (q : Queue) : Queue × QueueOutcome :=
  match q.firstIn .ready with
  | none => (q, .nothing)
  | some k =>
    match q.slots[k]? with
    | none => (q, .nothing)
    | some found =>
      let bytes := match found.desc with | none => 0 | some d => (p.descriptor d).bytes
      ({ q.setSlot k { found with payload := none, error := none, desc := none, state := .free } with
        stats := { q.stats with
          outstanding := u64Sub q.stats.outstanding 1
          outstandingBytes := u64Sub q.stats.outstandingBytes bytes } },
        .completed found.id found.payload found.error)

/-! ## `worker` and `stop` -/

def Queue.dequeue (w : Nat) : Option Queue :=
  match q.workers[w]?, q.firstIn .queued with
  | some .waiting, some k =>
    if q.stopping then none
    else (q.slots[k]?).map fun item =>
      (q.setSlot k { item with state := .running }).setWorker w (.dequeued k)
  | _, _ => none

def Worker.after (k : Nat) : Outcome → Worker
  | .running => .loading k
  | .leased i => .loaded k (some i) none
  | .threw error => .loaded k none (some error)
  | _ => .loaded k none none

/-- The action is one of worker `w` inside `cache_.acquire(item.desc)`. -/
def Queue.mayWork (w : Nat) (a : Action) : Option Nat :=
  match q.workers[w]? with
  | some (.dequeued k) =>
    if a = .acquire w ((q.slots[k]?).bind Slot.desc) then some k else none
  | some (.loading k) => if a.thread? = some w then some k else none
  | _ => none

def Queue.work (q : Queue) (w : Nat) (a : Action) : Option (Queue × Outcome) :=
  match q.mayWork w a with
  | none => none
  | some k => (step p q.cache a).map fun r =>
      ({ q.setWorker w (.after k r.2) with cache := r.1 }, r.2)

def Queue.complete (w : Nat) : Option Queue :=
  match q.workers[w]? with
  | some (.loaded k payload error) =>
    (q.slots[k]?).map fun item =>
      { (q.setSlot k { item with payload := payload, error := error, state := .ready }).setWorker w
          .waiting with
        cache := dropLease q.cache item.payload }
  | _ => none

def Queue.exit (w : Nat) : Option Queue :=
  match q.workers[w]? with
  | some .waiting => if q.stopping then some (q.setWorker w .stopped) else none
  | _ => none

def Queue.stop : Queue := { q with stopping := true }

/-! ## Steps -/

def Worker.payload? : Worker → Option LeaseId
  | .loaded _ payload _ => payload
  | .waiting | .dequeued _ | .loading _ | .stopped => none

/-- The leases the queue holds, in its slots and in the hands of its workers. -/
def Queue.Holds (i : LeaseId) : Prop :=
  (∃ item ∈ q.slots, item.payload = some i) ∨ ∃ worker ∈ q.workers, worker.payload? = some i

instance (q : Queue) (i : LeaseId) : Decidable (q.Holds i) := inferInstanceAs (Decidable (_ ∨ _))

/-- What other threads may do to the cache: anything but act for a worker, or
release a lease the queue holds. -/
def Foreign {p : Params} (cfg : QueueConfig p) (q : Queue) (a : Action) : Prop :=
  (∀ t ∈ a.thread?, cfg.workers ≤ t) ∧ ∀ i ∈ a.released?, ¬ q.Holds i

instance {p : Params} (cfg : QueueConfig p) (q : Queue) (a : Action) :
    Decidable (Foreign cfg q a) := inferInstanceAs (Decidable (_ ∧ _))

inductive QueueAction where
  | trySubmit (id : Nat) (value : Option DescId)
  | next (wait : Bool)
  | dequeue (w : Nat)
  | work (w : Nat) (a : Action)
  | complete (w : Nat)
  | exit (w : Nat)
  | stop
  /-- A cache step of a thread outside the pool. -/
  | other (a : Action)
  deriving DecidableEq

def queueStep {p : Params} (cfg : QueueConfig p) (q : Queue) :
    QueueAction → Option (Queue × QueueOutcome)
  | .trySubmit id value => some (q.trySubmit cfg id value)
  | .next wait => if wait = true ∧ q.hasResult = false then none else some (q.next p)
  | .dequeue w => (q.dequeue w).map (·, .moved)
  | .work w a => (q.work p w a).map fun r => (r.1, .cached r.2)
  | .complete w => (q.complete w).map (·, .moved)
  | .exit w => (q.exit w).map (·, .moved)
  | .stop => some (q.stop, .moved)
  | .other a =>
    if Foreign cfg q a then (step p q.cache a).map fun r => ({ q with cache := r.1 }, .cached r.2)
    else none

def QueueStep {p : Params} (cfg : QueueConfig p) (q : Queue) (a : QueueAction × QueueOutcome)
    (u : Queue) : Prop :=
  queueStep cfg q a.1 = some (u, a.2)

/-- A queue constructed over any cache in use, whose threads are not the queue's. -/
def QueueInit {p : Params} (cfg : QueueConfig p) (q : Queue) : Prop :=
  ∃ cache, Reached p cache ∧ (∀ w < cfg.workers, cache.calls.find? w = none) ∧
    q = Queue.initial cfg cache

abbrev QueueEvent := Event Queue (QueueAction × QueueOutcome)

end ExpertStreaming.LoadQueue
