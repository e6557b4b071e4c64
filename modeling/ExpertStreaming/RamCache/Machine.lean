import ExpertStreaming.Lib.Trace
import ExpertStreaming.RamCache.Ops

/-! # The RAM expert cache: threads and steps

Publication, the remaining entry points, and the step function of a cache shared
by any number of threads. The scheduler picks an action; `none` means the action
is not possible in that state. `changed_` may wake a waiter at any time, so
waking from the admission wait is always possible.
-/
namespace ExpertStreaming.RamCache
open Lib

variable (p : Params)

variable (s : State)

def State.destination (d : DescId) (l : LoadId) (done : Nat) : Nat :=
  (s.loads l).stagingOffset + bytesBefore p d done

def State.readExtent (t : Tid) (d : DescId) (l : LoadId) (done : Nat)
    (x : SourceExtent) : State :=
  { s with staging := s.staging.write (s.destination p d l done) (extentBytes p x) }.setCall t
    (.reading d l (done + 1))

/-- One `input->read(...)` that throws, after leaving `junk` in its destination. -/
def State.readThrows (t : Tid) (d : DescId) (l : LoadId) (done : Nat)
    (junk : List UInt8) (text : String) : State :=
  { s with staging := s.staging.write (s.destination p d l done) junk }.setCall t
    (.readFailed d l done (.readFailed text))

/-- `stats_.bytes_read[i] += bytes_read[i]` for the extents that were read. -/
def State.addBytesRead (d : DescId) (done : Nat) : State :=
  let read := (p.descriptor d).extents.take done
  s.modifyStats fun x => { x with bytesRead := fun b => x.bytesRead b +
    ((read.filter fun i => ((p.sources.find? i.source).map Source.backend) = some b).map
      SourceExtent.length).sum }

/-- Swap a reservation whose victims became leased for a new plan. -/
def State.replan (l : LoadId) (offset : Nat) (victims : List EntryId) : State :=
  let old := (s.loads l).victims
  { s with
    heap := fun e => if e ∈ victims then { s.heap e with reservedBy := some l } else
      if e ∈ old then { s.heap e with reservedBy := none } else s.heap e
    loads := fun i => if i = l then { s.loads i with victims := victims, arenaOffset := offset }
      else s.loads i }

/-- Remove one entry from the three indexes and the byte count. -/
def State.retire (e : EntryId) : State :=
  { s with
    stats := { s.stats with residentBytes := u64Sub s.stats.residentBytes (s.bytesOf p e) }
    byOffset := s.byOffset.erase (s.heap e).arenaOffset
    byRecency := s.byRecency.filter fun i => !s.lruEquiv p e i
    entries := s.entries.erase (s.keyOf p e) }

def State.retireVictims (victims : List EntryId) (s : State) : State :=
  victims.foldl (fun s e => (s.retire p e).modifyStats fun x =>
    { x with evictions := x.evictions + 1 }) s

def State.placeResult (l : LoadId) : State :=
  let offset := (s.loads l).arenaOffset
  s.modifyEntry (s.loads l).result fun x =>
    { x with arenaOffset := offset, data := some offset, ready := false }

/-- Index the loaded entry, retire its victims and start the copy. -/
def State.install (t : Tid) (d : DescId) (l : LoadId) :
    State × Outcome :=
  let e := (s.loads l).result
  if s.entries.contains (p.descriptor d).key then s.failLoad p t l .duplicatePublication
  else
    let s := { s with entries := s.entries.emplace (p.descriptor d).key e }
    let s := s.retireVictims p (s.loads l).victims
    if s.byOffset.contains (s.heap e).arenaOffset then s.failLoad p t l .duplicateIndex
    else
      let s := { s with byOffset := s.byOffset.emplace (s.heap e).arenaOffset e }
      match s.lruInsert p e with
      | none => s.failLoad p t l .duplicateIndex
      | some s =>
        ((s.modifyLoad l fun x => { x with state := .copying }).setCall t (.copying d l 0), .running)

def State.publish (t : Tid) (d : DescId) (l : LoadId) :
    State × Outcome :=
  (s.placeResult l).install p t d l

/-- The section after the last read: keep the reservation or find another. -/
def State.finishRead (t : Tid) (d : DescId) (l : LoadId) :
    State × Outcome :=
  let s := s.addBytesRead p d (p.descriptor d).extents.length
  if (s.loads l).victims.any fun v => (s.heap v).pins ≠ 0 then
    match s.allocationPlan p (p.descriptor d).bytes (some l) with
    | .error error => s.failLoad p t l error
    | .ok none =>
      (s.modifyStats fun x => { x with
        pinnedCapacityFailures := x.pinnedCapacityFailures + 1 }).failLoad p t l .reservationLeased
    | .ok (some (offset, victims)) => (s.replan l offset victims).publish p t d l
  else s.publish p t d l

def State.copyByte (t : Tid) (d : DescId) (l : LoadId) (done : Nat) : State :=
  let byte := s.staging ((s.loads l).stagingOffset + done)
  { s with arena := s.arena.write ((s.loads l).arenaOffset + done) [byte] }.setCall t
    (.copying d l (done + 1))

/-- The entry becomes ready with a completion pin, and the reservation ends. -/
def State.complete (t : Tid) (d : DescId) (l : LoadId) :
    State × Outcome :=
  let e := (s.loads l).result
  let bytes := (p.descriptor d).bytes
  let s := s.modifyEntry e fun x => { x with ready := true, pins := x.pins + 1 }
  let s := s.modifyLoad l fun x => { x with state := .ready }
  let s := s.modifyStats fun x => { x with
    residentBytes := x.residentBytes + bytes
    peakResidentBytes := max x.peakResidentBytes (x.residentBytes + bytes) }
  let s := s.releaseReservation p l
  ((((s.grant e d).leave t).dropLoad l), .leased s.nextLease)

def State.finishCopy (t : Tid) (d : DescId) (l : LoadId) :
    State × Outcome :=
  match s.touch p (s.loads l).result true with
  | (s, some error) => s.failLoad p t l error
  | (s, none) => s.complete p t d l

/-! ## The other entry points -/

def State.tryAcquire (value : Option DescId) : State × Outcome :=
  match value with
  | none => (s, .threw .nullDescriptor)
  | some d =>
    let key := (p.descriptor d).key
    if (s.canonical.find? key).getD d ≠ d then (s, .threw .keyReused)
    else
      match (s.entries.find? key).filter fun e => (s.heap e).ready with
      | none => (s, .empty)
      | some e =>
        match s.observe p key with
        | (s, some error) => (s, .threw error)
        | (s, none) => s.hit p e d

def State.eraseKey (key : ExpertKey) : State × Outcome :=
  match s.entries.find? key with
  | none => (s, .erased false)
  | some e =>
    if !(s.heap e).ready ∨ (s.heap e).reservedBy ≠ none ∨ (s.heap e).pins ≠ 0 then
      (s, .erased false)
    else (s.retire p e, .erased true)

def State.clear : State × Outcome :=
  if !s.pending.isEmpty then (s, .threw .clearWithFills)
  else if s.entries.values.any fun e => (s.heap e).pins ≠ 0 then (s, .threw .clearWithLeases)
  else
    ({ s with
      byOffset := .empty
      byRecency := []
      entries := .empty
      observations := .empty
      frequencyClock := 0
      stats := { s.stats with residentBytes := 0 } }, .cleared)

/-! ## Steps -/

inductive Action where
  /-- A new call of `acquire` on a thread that is not in one. -/
  | acquire (t : Tid) (value : Option DescId)
  /-- The admission wait ends and the loop runs again. -/
  | wake (t : Tid)
  /-- A coalesced caller finds its load finished. -/
  | join (t : Tid)
  | readExtent (t : Tid)
  | readThrows (t : Tid) (junk : List UInt8) (text : String)
  /-- The mutex is taken again after the reads. -/
  | finishRead (t : Tid)
  | copyByte (t : Tid)
  /-- The mutex is taken again after the copy. -/
  | finishCopy (t : Tid)
  | tryAcquire (value : Option DescId)
  | erase (key : ExpertKey)
  | clear
  | release (lease : LeaseId)
  deriving DecidableEq

def State.resume (a : Action) : Option (State × Outcome) :=
  match a with
  | .wake t =>
    match s.calls.find? t with
    | some (.admission d) => some (s.attempt p t d)
    | _ => none
  | .join t =>
    match s.calls.find? t with
    | some (.coalesced d l) =>
      if (s.loads l).state = .ready ∨ (s.loads l).state = .failed then some (s.joinResult p t d l)
      else none
    | _ => none
  | .readExtent t =>
    match s.calls.find? t with
    | some (.reading d l done) =>
      match (p.descriptor d).extents[done]? with
      | some x => some (s.readExtent p t d l done x, .running)
      | none => none
    | _ => none
  | .readThrows t junk text =>
    match s.calls.find? t with
    | some (.reading d l done) =>
      match (p.descriptor d).extents[done]? with
      | some x => if junk.length ≤ x.length then
          some (s.readThrows p t d l done junk text, .running) else none
      | none => none
    | _ => none
  | .finishRead t =>
    match s.calls.find? t with
    | some (.reading d l done) =>
      if done = (p.descriptor d).extents.length then some (s.finishRead p t d l) else none
    | some (.readFailed d l done error) => some ((s.addBytesRead p d done).failLoad p t l error)
    | _ => none
  | .copyByte t =>
    match s.calls.find? t with
    | some (.copying d l done) =>
      if done < (p.descriptor d).bytes then some (s.copyByte t d l done, .running) else none
    | _ => none
  | .finishCopy t =>
    match s.calls.find? t with
    | some (.copying d l done) =>
      if done = (p.descriptor d).bytes then some (s.finishCopy p t d l) else none
    | _ => none
  | _ => none

def step (a : Action) : Option (State × Outcome) :=
  match a with
  | .acquire t value =>
    match s.calls.find? t with
    | none => some (s.acquire p t value)
    | some _ => none
  | .tryAcquire value => some (s.tryAcquire p value)
  | .erase key => some (s.eraseKey p key)
  | .clear => some s.clear
  | .release i =>
    match s.leases.find? i with
    | some l => some (s.release i l, .released)
    | none => none
  | a => s.resume p a

/-- One step of the shared cache, labelled by the action and its outcome. -/
def Step (a : Action × Outcome) (t : State) : Prop :=
  step p s a.1 = some (t, a.2)

def Init : Prop := ∃ staging arena, s = State.initial staging arena

/-- States a cache can be in, whatever its threads and their scheduling. -/
abbrev Reached : Prop := Reachable Init (Step p) s

end ExpertStreaming.RamCache
