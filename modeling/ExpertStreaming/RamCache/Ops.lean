import ExpertStreaming.Lib.Word
import ExpertStreaming.RamCache.Plan

/-! # The RAM expert cache: mutex sections

Each function below is what one thread does between taking `mutex_` and giving it
up, or one of the two activities the source performs without it: storage reads
and the publication copy. An exception leaves the state as it was when thrown,
so sections return a state and a result.
-/
namespace ExpertStreaming.RamCache
open Lib

variable (s : State)

def State.modifyEntry (e : EntryId) (f : Entry → Entry) : State :=
  { s with heap := fun i => if i = e then f (s.heap i) else s.heap i }

def State.modifyLoad (l : LoadId) (f : PendingLoad → PendingLoad) : State :=
  { s with loads := fun i => if i = l then f (s.loads i) else s.loads i }

def State.modifyStats (f : CacheStats → CacheStats) : State :=
  { s with stats := f s.stats }

/-! ## The retention order -/

def lruLess (p : Params) (a b : Entry) : Bool :=
  if a.frequency ≠ b.frequency then a.frequency < b.frequency
  else if a.lastUsed ≠ b.lastUsed then a.lastUsed < b.lastUsed
  else if a.insertionOrder ≠ b.insertionOrder then a.insertionOrder < b.insertionOrder
  else (p.descriptor a.desc).key < (p.descriptor b.desc).key

/-- Neither element is less than the other: the same position of the set. -/
def State.lruEquiv (p : Params) (s : State) (a b : EntryId) : Bool :=
  !lruLess p (s.heap a) (s.heap b) && !lruLess p (s.heap b) (s.heap a)

/-- The list with `e` before the first element greater than it. -/
def State.lruPlace (p : Params) (s : State) (e : EntryId) (l : List EntryId) : List EntryId :=
  l.orderedInsert (fun a b => lruLess p (s.heap a) (s.heap b) = true) e

/-- `by_recency_.insert(node)`; `none` when an equivalent element is present. -/
def State.lruInsert (p : Params) (s : State) (e : EntryId) : Option State :=
  if s.byRecency.any (s.lruEquiv p e) then none
  else some { s with byRecency := s.lruPlace p e s.byRecency }

/-- Reinsert extracted nodes under aged frequencies. Where `at` throws, the rest is destroyed. -/
def State.reinsert (p : Params) : List EntryId → State → State × Option CacheError
  | [], s => (s, none)
  | e :: rest, s =>
    match s.observations.find? (s.keyOf p e) with
    | none => (s, some .observationMissing)
    | some f =>
      let s := s.modifyEntry e fun x => { x with frequency := f }
      State.reinsert p rest ((s.lruInsert p e).getD s)

def State.age (p : Params) (s : State) : State × Option CacheError :=
  State.reinsert p s.byRecency
    { s with byRecency := [], observations := s.observations.mapValues (· / 2) }

def State.count (key : ExpertKey) : State :=
  { s with observations :=
      s.observations.insert key (min ((s.observations.find? key).getD 0 + 1) 64) }

def State.observe (p : Params) (s : State) (key : ExpertKey) : State × Option CacheError :=
  if p.config.frequencyRetention then
    let s := { s with frequencyClock := s.frequencyClock + 1 }
    if s.frequencyClock % 16384 = 0 then
      match s.age p with
      | (s, some error) => (s, some error)
      | (s, none) => (s.count key, none)
    else (s.count key, none)
  else (s, none)

def State.restamp (e : EntryId) (frequency : Nat) (inserted : Bool) : State :=
  let order := if inserted then s.insertionClock + 1 else s.insertionClock
  { s with insertionClock := order }.modifyEntry e fun x =>
    { x with
      frequency := frequency
      insertionOrder := if inserted then order else x.insertionOrder }

def State.touch (p : Params) (s : State) (e : EntryId) (inserted : Bool) :
    State × Option CacheError :=
  match s.byRecency.find? (s.lruEquiv p e) with
  | none => (s, some .lruMissing)
  | some node =>
    let s := { s with byRecency := s.byRecency.erase node, clock := s.clock + 1 }.modifyEntry e
      fun x => { x with lastUsed := s.clock + 1 }
    let frequency :=
      if p.config.frequencyRetention then s.observations.find? (s.keyOf p e)
      else some (s.heap e).frequency
    match frequency with
    -- `observations_.at` throws while the node is out of the set
    | none => (s, some .observationMissing)
    | some f =>
      let s := s.restamp e f inserted
      match s.lruInsert p node with
      | none => (s, some .lruDuplicated)
      | some s => (s, none)

/-! ## Leases and references -/

/-- What a section ends with: the caller is still inside `acquire`, or the
operation returned or threw. -/
inductive Outcome where
  | running
  | leased (lease : LeaseId)
  /-- `try_acquire`'s empty lease. -/
  | empty
  | threw (error : CacheError)
  | erased (found : Bool)
  | cleared
  | released
  deriving DecidableEq

def State.grant (e : EntryId) (d : DescId) : State :=
  { s.modifyEntry e fun x => { x with pins := x.pins + 1 } with
    leases := s.leases.insert s.nextLease ⟨e, d⟩
    nextLease := s.nextLease + 1 }

def State.release (i : LeaseId) (l : Lease) : State :=
  { s.modifyEntry l.entry fun x => { x with pins := u64Sub x.pins 1 } with
    leases := s.leases.erase i }

/-- A caller's reference goes. The last one runs the destructor, which gives up the completion
pin. -/
def State.dropLoad (l : LoadId) : State :=
  let s := s.modifyLoad l fun x => { x with useCount := x.useCount - 1 }
  if (s.loads l).useCount = 0 ∧ (s.loads l).state = .ready then
    s.modifyEntry (s.loads l).result fun x => { x with pins := u64Sub x.pins 1 }
  else s

def State.leave (t : Tid) : State := { s with calls := s.calls.erase t }

def State.setCall (t : Tid) (c : Call) : State :=
  { s with calls := s.calls.insert t c }

def State.hit (p : Params) (s : State) (e : EntryId) (d : DescId) : State × Outcome :=
  match s.touch p e false with
  | (s, some error) => (s, .threw error)
  | (s, none) =>
    let s := s.modifyStats fun x => { x with hits := x.hits + 1 }
    (s.grant e d, .leased s.nextLease)

/-! ## Reservations -/

def State.releaseReservation (p : Params) (s : State) (l : LoadId) : State :=
  let victims := (s.loads l).victims
  let bytes := s.bytesOf p (s.loads l).result
  { s with
    heap := fun e => if e ∈ victims ∧ (s.heap e).reservedBy = some l then
        { s.heap e with reservedBy := none } else s.heap e
    stats := { s.stats with
      reservedBytes := u64Sub s.stats.reservedBytes bytes
      stagingUsedBytes := u64Sub s.stats.stagingUsedBytes bytes
      activeLoads := u64Sub s.stats.activeLoads 1 }
    -- erasing from the map gives up the map's reference
    pending := s.pending.erase (s.keyOf p (s.loads l).result)
    loads := fun i => if i = l then { s.loads i with useCount := (s.loads i).useCount - 1 }
      else s.loads i }

/-- The `catch` block of `acquire`, through to the rethrow. -/
def State.failLoad (p : Params) (s : State) (t : Tid) (l : LoadId) (error : CacheError) :
    State × Outcome :=
  let s := s.modifyLoad l fun x => { x with error := some error, state := .failed }
  let s := s.modifyStats fun x => { x with failedLoads := x.failedLoads + 1 }
  let s := s.releaseReservation p l
  ((s.leave t).dropLoad l, .threw error)

def State.reserve (p : Params) (s : State) (t : Tid) (d : DescId) (offset : Nat)
    (victims : List EntryId) (stagingOffset : Nat) : State :=
  let l := s.next
  let bytes := (p.descriptor d).bytes
  { s with
    heap := fun i => if i = l then { desc := d } else
      if i ∈ victims then { s.heap i with reservedBy := some l } else s.heap i
    loads := fun i => if i = l then
        { result := l, victims := victims, stagingOffset := stagingOffset, arenaOffset := offset,
          useCount := 2 }
      else s.loads i
    next := s.next + 1
    pending := s.pending.emplace (p.descriptor d).key l
    calls := s.calls.insert t (.reading d l 0)
    stats := { s.stats with
      misses := s.stats.misses + 1
      activeLoads := s.stats.activeLoads + 1
      peakActiveLoads := max s.stats.peakActiveLoads (s.stats.activeLoads + 1)
      reservedBytes := s.stats.reservedBytes + bytes
      stagingUsedBytes := s.stats.stagingUsedBytes + bytes
      peakStagingUsedBytes := max s.stats.peakStagingUsedBytes
        (s.stats.stagingUsedBytes + bytes) } }

def sourcesMatch (p : Params) (d : DescId) : Bool :=
  (p.descriptor d).extents.all fun x =>
    match p.sources.find? x.source with
    | none => false
    | some source => source.identity == x.identity

/-! ## The admission loop -/

/-- `changed_.wait(lock)`. -/
def State.awaitChange (t : Tid) (d : DescId) : State × Outcome :=
  ((s.modifyStats fun x => { x with stagingWaits := x.stagingWaits + 1 }).setCall t
    (.admission d), .running)

/-- The rest of the loop body when the key is neither ready nor pending. -/
def State.admitLoad (p : Params) (s : State) (t : Tid) (d : DescId) : State × Outcome :=
  let bytes := (p.descriptor d).bytes
  match s.allocationPlan p bytes none with
  | .error error => (s.leave t, .threw error)
  | .ok none =>
    if s.pending.isEmpty then
      ((s.modifyStats fun x => { x with
        pinnedCapacityFailures := x.pinnedCapacityFailures + 1 }).leave t,
        .threw .allCandidatesLeased)
    else s.awaitChange t d
  | .ok (some (offset, victims)) =>
    match s.stagingPlan p bytes with
    | .error error => (s.leave t, .threw error)
    | .ok none => s.awaitChange t d
    | .ok (some stagingOffset) =>
      if sourcesMatch p d then (s.reserve p t d offset victims stagingOffset, .running)
      else (s.leave t, .threw .sourceIdentityMismatch)

def State.coalesce (t : Tid) (d : DescId) (l : LoadId) : State × Outcome :=
  (((s.modifyStats fun x => { x with coalescedLoads := x.coalescedLoads + 1 }).modifyLoad l
    fun x => { x with useCount := x.useCount + 1 }).setCall t (.coalesced d l), .running)

def State.attempt (p : Params) (s : State) (t : Tid) (d : DescId) : State × Outcome :=
  let key := (p.descriptor d).key
  match (s.entries.find? key).filter fun e => (s.heap e).ready with
  | some e => (s.leave t).hit p e d
  | none =>
    match s.pending.find? key with
    | some l => s.coalesce t d l
    | none => s.admitLoad p t d

/-- Entry to `acquire`: the checks before the loop, and its first iteration. -/
def State.acquire (p : Params) (s : State) (t : Tid) (value : Option DescId) : State × Outcome :=
  match value with
  | none => (s, .threw .nullDescriptor)
  | some d =>
    let desc := p.descriptor d
    if desc.bytes > p.config.capacityBytes ∨ desc.bytes > p.config.stagingBytes ∨
        desc.bytes > u64Max then
      (s.modifyStats fun x => { x with rejectedAdmissions := x.rejectedAdmissions + 1 },
        .threw (.componentTooLarge desc.key))
    else if (s.canonical.find? desc.key).getD d ≠ d then (s, .threw .keyReused)
    else
      match { s with canonical := s.canonical.emplace desc.key d }.observe p desc.key with
      | (s, some error) => (s, .threw error)
      | (s, none) => s.attempt p t d

def State.joinResult (p : Params) (s : State) (t : Tid) (d : DescId) (l : LoadId) :
    State × Outcome :=
  match (s.loads l).error with
  | some error => ((s.leave t).dropLoad l, .threw error)
  | none =>
    match s.hit p (s.loads l).result d with
    | (s, outcome) => ((s.leave t).dropLoad l, outcome)

end ExpertStreaming.RamCache
