import ExpertStreaming.LoadQueue.Model

/-! # The read-ahead queue

Bounded storage advice for experts that later layers may need. Producers submit
hints, `advance` reports how far the graph pass has come and expires stale ones,
and one worker hands the hints to the sources while the demand queue is idle. The
demand queue and the cache below it take their own steps in between.
-/
namespace ExpertStreaming.ReadAhead
open Lib RamCache LoadQueue

/-- The arguments the constructor accepts, and the demand queue it is given. -/
structure AheadConfig (p : Params) where
  passByteLimit : Nat
  limit_pos : 0 < passByteLimit
  limit_le : passByteLimit ≤ 2 ^ 30
  queue : QueueConfig p
  /-- `demand_` is not null. -/
  demand : Bool

structure AheadStats where
  submitted : Nat := 0
  advisedBytes : Nat := 0
  skipped : Nat := 0
  expired : Nat := 0
  rejected : Nat := 0
  failed : Nat := 0
  outstandingBytes : Nat := 0
  peakOutstandingBytes : Nat := 0
  deriving DecidableEq

/-- Where the worker thread is, between its sections. -/
inductive AheadWorker where
  | waiting
  /-- It has popped the hint and is about to call `advise_will_need`. -/
  | popped (d : DescId)
  /-- Past the cache's own check, about to ask the sources. -/
  | issuing (d : DescId)
  /-- `advise_will_need` has returned or thrown; the mutex is not yet held again. -/
  | advised (d : DescId) (bytes : Nat) (failed : Bool)
  | stopped
  deriving DecidableEq

def AheadWorker.hint? : AheadWorker → Option DescId
  | .waiting | .stopped => none
  | .popped d | .issuing d | .advised d _ _ => some d

/-- The queue, with the demand queue and the cache it works for. -/
structure Ahead where
  base : Queue
  pending : List DescId := []
  seen : List ExpertKey := []
  owner : Nat := 0
  pass : Nat := 0
  admittedBytes : Nat := 0
  layer : Nat := 0
  stopping : Bool := false
  stats : AheadStats := {}
  worker : AheadWorker := .waiting

inductive AheadError where
  | nullHint
  /-- `std::bad_alloc` from `pending_.push_back`. -/
  | outOfMemory
  deriving DecidableEq

inductive AheadOutcome where
  /-- `submit` returned true. -/
  | accepted
  /-- `submit` returned false. -/
  | rejected
  | threw (error : AheadError)
  | dequeued (d : DescId)
  /-- A section that returns nothing. -/
  | moved
  /-- A step of the demand queue or the cache. -/
  | based (outcome : QueueOutcome)

/-! ## `stop`, `advance` and `submit` -/

def AheadStats.expireHint (p : Params) (stats : AheadStats) (d : DescId) : AheadStats :=
  { stats with
    outstandingBytes := u64Sub stats.outstandingBytes (p.descriptor d).bytes
    expired := stats.expired + 1 }

def expire (p : Params) (stale : DescId → Bool) : List DescId → AheadStats →
    List DescId × AheadStats
  | [], stats => ([], stats)
  | d :: rest, stats =>
    if stale d then expire p stale rest (stats.expireHint p d)
    else
      let kept := expire p stale rest stats
      (d :: kept.1, kept.2)

def Ahead.stop (p : Params) (s : Ahead) : Ahead :=
  { s with
    stopping := true
    stats := (expire p (fun _ => true) s.pending s.stats).2
    pending := [] }

def Ahead.advance (p : Params) (s : Ahead) (owner pass layer : Nat) : Ahead :=
  let newPass : Bool := owner ≠ s.owner ∨ pass ≠ s.pass
  let kept := expire p (fun d => newPass ∨ (p.descriptor d).key.layer ≤ layer) s.pending s.stats
  { s with
    pending := kept.1
    stats := kept.2
    seen := if newPass then [] else s.seen
    admittedBytes := if newPass then 0 else s.admittedBytes
    owner := owner
    pass := pass
    layer := layer }

def Ahead.admitHint (p : Params) (s : Ahead) (d : DescId) : Ahead :=
  let bytes := (p.descriptor d).bytes
  { s with
    seen := (p.descriptor d).key :: s.seen
    pending := s.pending ++ [d]
    admittedBytes := s.admittedBytes + bytes
    stats := { s.stats with
      outstandingBytes := s.stats.outstandingBytes + bytes
      peakOutstandingBytes := max s.stats.peakOutstandingBytes (s.stats.outstandingBytes + bytes)
      submitted := s.stats.submitted + 1 } }

/-- `submit`; `room` is false when `push_back` throws, which takes the key out of
`seen_` again. -/
def Ahead.submit {p : Params} (cfg : AheadConfig p) (s : Ahead) (value : Option DescId)
    (room : Bool) : Ahead × AheadOutcome :=
  match value with
  | none => (s, .threw .nullHint)
  | some d =>
    let key := (p.descriptor d).key
    if s.stopping ∨ key.layer ≤ s.layer ∨ key ∈ s.seen ∨ s.pending.length ≥ 64 ∨
        s.seen.length ≥ 4096 ∨
        (p.descriptor d).bytes > u64Sub cfg.passByteLimit s.admittedBytes then
      ({ s with stats := { s.stats with rejected := s.stats.rejected + 1 } }, .rejected)
    else if room then (s.admitHint p d, .accepted)
    else ({ s with seen := (key :: s.seen).erase key }, .threw .outOfMemory)

/-! ## `worker` and `ram_cache::advise_will_need` -/

/-- The worker pops the first hint, unless the demand queue has work outstanding. -/
def Ahead.dequeue {p : Params} (cfg : AheadConfig p) (s : Ahead) : Option (Ahead × DescId) :=
  match s.worker, s.pending with
  | .waiting, d :: rest =>
    if s.stopping ∨ (cfg.demand ∧ s.base.stats.outstanding ≠ 0) then none
    else some ({ s with pending := rest, worker := .popped d }, d)
  | _, _ => none

inductive Advice where
  /-- Thrown: the key belongs to another descriptor. -/
  | keyReused
  /-- Ready or on its way: nothing to advise. -/
  | present
  | absent
  deriving DecidableEq

/-- The section of `advise_will_need` under the cache's mutex. -/
def consult (p : Params) (cache : State) (d : DescId) : Advice :=
  let key := (p.descriptor d).key
  if (cache.canonical.find? key).getD d ≠ d then .keyReused
  else if ((cache.entries.find? key).any fun e => (cache.heap e).ready) ∨
      cache.pending.contains key then .present
  else .absent

def extentsValid (p : Params) (d : DescId) : Bool :=
  (p.descriptor d).extents.all fun x =>
    match p.sources.find? x.source with
    | none => false
    | some source => source.identity = x.identity ∧ x.offset ≤ source.size ∧
        x.length ≤ source.size - x.offset

def advisedBytes (p : Params) (d : DescId) (taken : List Bool) : Nat :=
  (((p.descriptor d).extents.zip taken).map fun x => if x.2 then x.1.length else 0).sum

def Ahead.consulted (p : Params) (s : Ahead) : Option Ahead :=
  match s.worker with
  | .popped d =>
    match consult p s.base.cache d with
    | .keyReused => some { s with worker := .advised d 0 true }
    | .present => some { s with worker := .advised d 0 false }
    | .absent => some { s with worker := .issuing d }
  | _ => none

/-- The sources answer, extent by extent; `none` when one of them throws. -/
def Ahead.issued (p : Params) (s : Ahead) (answers : Option (List Bool)) : Option Ahead :=
  match s.worker with
  | .issuing d =>
    match extentsValid p d, answers with
    | true, some taken =>
      if taken.length = (p.descriptor d).extents.length then
        some { s with worker := .advised d (advisedBytes p d taken) false }
      else none
    | _, _ => some { s with worker := .advised d 0 true }
  | _ => none

def Ahead.complete (p : Params) (s : Ahead) : Option Ahead :=
  match s.worker with
  | .advised d bytes failed =>
    some { s with
      worker := .waiting
      stats := { s.stats with
        advisedBytes := s.stats.advisedBytes + bytes
        failed := s.stats.failed + failed.toNat
        skipped := s.stats.skipped + if bytes = 0 ∧ failed = false then 1 else 0
        outstandingBytes := u64Sub s.stats.outstandingBytes (p.descriptor d).bytes } }
  | _ => none

def Ahead.exit (s : Ahead) : Option Ahead :=
  match s.worker with
  | .waiting => if s.stopping then some { s with worker := .stopped } else none
  | _ => none

/-! ## Steps -/

inductive AheadAction where
  | submit (value : Option DescId) (room : Bool)
  | advance (owner pass layer : Nat)
  | dequeue
  | consult
  | issue (answers : Option (List Bool))
  | complete
  | exit
  | stop
  /-- A step of the demand queue or the cache. -/
  | base (a : QueueAction)

def aheadStep {p : Params} (cfg : AheadConfig p) (s : Ahead) :
    AheadAction → Option (Ahead × AheadOutcome)
  | .submit value room => some (s.submit cfg value room)
  | .advance owner pass layer => some (s.advance p owner pass layer, .moved)
  | .dequeue => (s.dequeue cfg).map fun r => (r.1, .dequeued r.2)
  | .consult => (s.consulted p).map (·, .moved)
  | .issue answers => (s.issued p answers).map (·, .moved)
  | .complete => (s.complete p).map (·, .moved)
  | .exit => s.exit.map (·, .moved)
  | .stop => some (s.stop p, .moved)
  | .base a => (queueStep cfg.queue s.base a).map fun r => ({ s with base := r.1 }, .based r.2)

def AheadStep {p : Params} (cfg : AheadConfig p) (s : Ahead) (a : AheadAction × AheadOutcome)
    (u : Ahead) : Prop :=
  aheadStep cfg s a.1 = some (u, a.2)

/-- A queue just constructed over a demand queue and a cache in use. -/
def AheadInit {p : Params} (cfg : AheadConfig p) (s : Ahead) : Prop :=
  ∃ base, Reachable (QueueInit cfg.queue) (QueueStep cfg.queue) base ∧ s = { base := base }

abbrev AheadEvent := Event Ahead (AheadAction × AheadOutcome)

end ExpertStreaming.ReadAhead
