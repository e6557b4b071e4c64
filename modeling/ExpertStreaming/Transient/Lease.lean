import Mathlib.Data.List.Sort
import ExpertStreaming.Transient.State

/-! # The transient module manager: registration and leases

`acquire` admits a request (which modules must go, which must come), quiesces them,
prepares their owners and publishes the change as one epoch. `release` gives a lease
back; the last lease of an epoch finalizes the change or rolls it back. `none` stands
for the places where the source aborts the process.
-/
namespace ExpertStreaming.Transient

open Lib Planner

/-- What a call tells its caller. -/
inductive Reply where
  | lease (id : Nat)
  | accepted
  | refused (message : String)
  deriving DecidableEq

namespace Manager

def refuse (s : Manager) (message : String) : Manager × Reply :=
  (s.fail message, .refused message)

/-! ## Registration -/

def addModule (s : Manager) (desc : ModuleDesc) : Manager :=
  { s with
    modules := s.modules.insert desc.id
      { desc := desc, resident := desc.initiallyResident, lastUse := s.clock + 1 }
    clock := s.clock + 1
    live := Function.update s.live desc.id
      (if desc.initiallyResident then some s.nextOwner else none)
    nextOwner := s.nextOwner + 1
    generation := s.generation + 1 }

def registerModule (s : Manager) (desc : ModuleDesc) : Manager × Reply :=
  if s.transaction.isSome then
    s.refuse "cannot register a transient module while policy reconfiguration is open"
  else if desc.id = "" then
    s.refuse "transient module id must not be empty"
  else if s.modules.contains desc.id then
    s.refuse ("duplicate transient module: " ++ desc.id)
  else if ¬ s.budgets.contains desc.device then
    s.refuse ("transient module references an unbudgeted device: " ++ desc.id)
  else if s.usableBytes desc.device < desc.bytes then
    s.refuse ("transient module exceeds the device budget: " ++ desc.id)
  else if (s.addModule desc).usableBytes desc.device <
      (s.addModule desc).residentBytesLocked desc.device then
    { s with clock := s.clock + 1 }.refuse
      ("initial transient residency exceeds the device budget: " ++ desc.id)
  else (s.addModule desc, .accepted)

/-! ## Admission -/

/-- The distinct requested modules, and what their loading needs on every device. -/
structure Request where
  ids : OrdMap String Unit := OrdMap.empty
  needed : OrdMap Int Nat := OrdMap.empty

def collectOne (s : Manager) (acc : Request) (id : String) : Except String Request :=
  match s.modules.find? id with
  | none => .error ("unknown transient module: " ++ id)
  | some m =>
    if m.enabled = false then
      .error ("transient module is disabled by the active policy: " ++ id)
    else if acc.ids.contains id then .ok acc
    else
      .ok
        { ids := acc.ids.insert id ()
          needed :=
            if m.resident then acc.needed
            else acc.needed.insert m.desc.device
              (u64Add ((acc.needed.find? m.desc.device).getD 0) m.desc.bytes) }

def collect (s : Manager) : List String → Request → Except String Request
  | [], acc => .ok acc
  | id :: rest, acc => (s.collectOne acc id).bind (s.collect rest)

/-- The modules that may leave a device, the least recently used first. -/
def candidates (s : Manager) (ids : OrdMap String Unit) (device : Int) : List String :=
  ((s.modules.toList.filter fun b => b.2.resident ∧ b.2.pins = 0 ∧ b.2.desc.device = device ∧
      ¬ ids.contains b.1).insertionSort fun a b => a.2.lastUse ≤ b.2.lastUse).map Prod.fst

def evictUntil (s : Manager) (usable need : Nat) : Nat → List String → Nat × List String
  | projected, [] => (projected, [])
  | projected, id :: rest =>
    if u64Add projected need ≤ usable then (projected, [])
    else
      let tail := s.evictUntil usable need (u64Sub projected (s.bytesOf id)) rest
      (tail.1, id :: tail.2)

def evictDevice (s : Manager) (ids : OrdMap String Unit) (device : Int) (need : Nat) :
    Except String (List String) :=
  if s.usableBytes device < need then
    .error "requested transient set exceeds the device budget"
  else
    let plan := s.evictUntil (s.usableBytes device) need (s.residentBytesLocked device)
      (s.candidates ids device)
    if s.usableBytes device < u64Add plan.1 need then
      .error ("insufficient evictable transient capacity on device " ++ toString device)
    else .ok plan.2

def evictAll (s : Manager) (ids : OrdMap String Unit) :
    List (Int × Nat) → Except String (List String)
  | [] => .ok []
  | (device, need) :: rest =>
    (s.evictDevice ids device need).bind fun evicted =>
      (s.evictAll ids rest).map (evicted ++ ·)

def isResident (s : Manager) (id : String) : Bool :=
  match s.modules.find? id with
  | some m => m.resident
  | none => false

/-- What an acquisition will do. -/
structure Admission where
  ids : List String
  evicted : List String
  activated : List String
  joins : Bool

inductive Refusal where
  | plain (message : String)
  | oom (message : String)

def admitRequest (s : Manager) (requested : List String) : Except Refusal Admission :=
  if s.transaction.isSome then
    .error (.plain "transient module acquisition is blocked by policy reconfiguration")
  else
    match s.collect requested {} with
    | .error message => .error (.plain message)
    | .ok request =>
      match s.evictAll request.ids request.needed.toList with
      | .error message => .error (.oom message)
      | .ok evicted =>
        let activated := request.ids.keys.filter fun id => ¬ s.isResident id
        match s.epoch with
        | none => .ok ⟨request.ids.keys, evicted, activated, false⟩
        | some e =>
          if evicted ++ activated ≠ [] then
            .error (.plain
              "transient owner swap is blocked until the active residency epoch resolves")
          else .ok ⟨request.ids.keys, evicted, activated,
            request.ids.keys.any fun id => e.activated.contains id⟩

/-! ## Owners -/

def firstFailing (agrees : String → Bool) (ids : List String) : Option String :=
  ids.find? fun id => ¬ agrees id

def thrownText (doing : String) : Thrown → String
  | some what => doing ++ ": " ++ what
  | none => doing

/-- Prepares an owner change for each module; a module that is loaded gets a new owner. -/
def prepareOwners (s : Manager) (answers : Answers) (target : Bool) :
    List String → Owner → Except String (List ResidencyTransition × Owner)
  | [], next => .ok ([], next)
  | id :: rest, next =>
    match s.modules.find? id with
    | none => .error "unexpected failure while preparing exact transient owners"
    | some m =>
      if m.desc.exactCallbacks = false then
        .error ("transient module lacks exact prepared residency callbacks: " ++ id)
      else
        match answers.prepare id with
        | some text =>
          .error (if text = "" then "failed to prepare transient module owner: " ++ id else text)
        | none =>
          (s.prepareOwners answers target rest (next + 1)).map fun r =>
            ({ id := id
               handle := { side := if target then some next else none }
               priorResident := m.resident
               targetResident := target } :: r.1, r.2)

def prepareResidency (s : Manager) (answers : Answers) (evicted activated : List String) :
    Except String (ResidencyTransaction × Owner) :=
  (s.prepareOwners answers false evicted s.nextOwner).bind fun out =>
    (s.prepareOwners answers true activated out.2).map fun fresh =>
      ({ modules := out.1 ++ fresh.1 }, fresh.2)

inductive Publication where
  | published (live : String → Option Owner) (modules : List ResidencyTransition)
  | failed (message : String) (live : String → Option Owner) (modules : List ResidencyTransition)
  | aborted

/-- Publishes one owner after the other, and rolls them back when one fails, the last one first.
-/
def publishOwners (answers : Answers) :
    (String → Option Owner) → List ResidencyTransition → Publication
  | live, [] => .published live []
  | live, t :: rest =>
    match answers.publish t.id with
    | some text =>
      .failed (if text = "" then "failed to publish transient module owner: " ++ t.id else text)
        live (t :: rest)
    | none =>
      let swap := t.handle.publish live t.id
      match publishOwners answers swap.1 rest with
      | .published live rest =>
        .published live ({ t with handle := swap.2, published := true } :: rest)
      | .failed message live rest =>
        match answers.rollback t.id with
        | some _ => .aborted
        | none =>
          let back := swap.2.rollback live t.id
          .failed message back.1 ({ t with handle := back.2, published := false } :: rest)
      | .aborted => .aborted

def moveTo (s : Manager) (id : String) (resident : Bool) : Manager :=
  (s.setResident id resident).countSwap (s.bytesOf id)

def publishResidency (s : Manager) (answers : Answers) (owners : ResidencyTransaction) :
    Option (Manager × Except String ResidencyTransaction) :=
  if owners.published then
    some (s, .error "transient residency transaction is already published")
  else
    match publishOwners answers s.live owners.modules with
    | .aborted => none
    | .failed message live _ => some ({ s with live := live }, .error message)
    | .published live modules =>
      some (modules.foldl (fun s t => s.moveTo t.id t.targetResident) { s with live := live },
        .ok { modules := modules, published := true })

def rollbackOwners (answers : Answers) (live : String → Option Owner) :
    List ResidencyTransition → Option ((String → Option Owner) × List ResidencyTransition)
  | [] => some (live, [])
  | t :: rest =>
    match rollbackOwners answers live rest with
    | none => none
    | some (live, rest) =>
      if t.published then
        match answers.rollback t.id with
        | some _ => none
        | none =>
          let back := t.handle.rollback live t.id
          some (back.1, { t with handle := back.2, published := false } :: rest)
      else some (live, t :: rest)

def rollbackResidency (s : Manager) (answers : Answers) (owners : ResidencyTransaction) :
    Option Manager :=
  if owners.published then
    (rollbackOwners answers s.live owners.modules).map fun r =>
      (r.2.foldl (fun (s : Manager) t => s.moveTo t.id t.priorResident)
        { s with live := r.1 }).countRollback
  else none

def finalizeResidency (s : Manager) (answers : Answers) (owners : ResidencyTransaction) :
    Option Manager :=
  if owners.published then
    if owners.modules.any fun t => (answers.finalize t.id).isSome then none else some s
  else none

/-! ## Leases -/

def freshLeaseId (s : Manager) : Option Nat :=
  ((List.range (s.leases.size + 2)).map fun k => (s.nextLeaseId + k) % 2 ^ 64).find? fun id =>
    id ≠ 0 ∧ ¬ s.leases.contains id

def afterLeaseId (s : Manager) (id : Nat) : Manager :=
  { s with nextLeaseId := (id + 1) % 2 ^ 64 }

def joined (e : ResidencyEpoch) : ResidencyEpoch := { e with openLeases := e.openLeases + 1 }

def grantResident (s : Manager) (answers : Answers) (a : Admission) (restorePrior : Bool)
    (id : Nat) : Manager × Reply :=
  match answers.reserveLease with
  | some thrown =>
    s.refuse (thrownText "failed to reserve transient lease bookkeeping" thrown)
  | none =>
    let lease : LeaseEntry :=
      { requested := a.ids
        restorePrior := restorePrior
        epoch := if a.joins then s.epoch.map ResidencyEpoch.serial else none }
    let s := { s with
      leases := s.leases.insert id lease
      epoch := if a.joins then s.epoch.map joined else s.epoch }
    (a.ids.foldl pin s, .lease id)

def grantEpoch (s : Manager) (answers : Answers) (a : Admission) (restorePrior : Bool)
    (owners : ResidencyTransaction) (id : Nat) : Option (Manager × Reply) :=
  match answers.reserveLease with
  | some thrown =>
    some (s.refuse (thrownText "failed to reserve transient lease bookkeeping" thrown))
  | none =>
    let serial := s.nextSerial
    let lease : LeaseEntry :=
      { requested := a.ids, restorePrior := restorePrior, epoch := some serial }
    let s := { s with leases := s.leases.insert id lease, nextSerial := serial + 1 }
    match s.publishResidency answers owners with
    | none => none
    | some (s, .error message) =>
      some ({ s with leases := s.leases.erase id }.refuse
        (if message = "" then "failed to publish exact transient owners" else message))
    | some (s, .ok owners) =>
      let epoch : ResidencyEpoch :=
        { serial := serial
          activated := a.activated
          evicted := a.evicted
          affected := a.evicted ++ a.activated
          owners := owners
          openLeases := 1 }
      some (a.ids.foldl pin { s with epoch := some epoch }, .lease id)

def acquire (s : Manager) (answers : Answers) (requested : List String) (restorePrior : Bool) :
    Option (Manager × Reply) :=
  let s := s.countTransaction
  match s.admitRequest requested with
  | .error (.plain message) => some (s.refuse message)
  | .error (.oom message) => some (s.countOom.refuse message)
  | .ok a =>
    match answers.reserveQuiesce with
    | some thrown =>
      some (s.refuse (thrownText "failed to reserve transient quiesce bookkeeping" thrown))
    | none =>
      match firstFailing answers.quiesce (a.evicted ++ a.activated) with
      | some id => some (s.refuse ("failed to quiesce transient module: " ++ id))
      | none =>
        if a.evicted ++ a.activated = [] then
          s.freshLeaseId.map fun id => (s.afterLeaseId id).grantResident answers a restorePrior id
        else
          match s.prepareResidency answers a.evicted a.activated with
          | .error message =>
            some (s.refuse
              (if message = "" then "failed to prepare exact transient owners" else message))
          | .ok (owners, next) =>
            let s := { s with nextOwner := next }
            match answers.reserveEpoch with
            | some thrown =>
              some (s.refuse (thrownText "failed to reserve transient residency epoch" thrown))
            | none =>
              s.freshLeaseId.bind fun id =>
                (s.afterLeaseId id).grantEpoch answers a restorePrior owners id

def pinsOf (s : Manager) (id : String) : Nat :=
  match s.modules.find? id with
  | some m => m.pins
  | none => 0

def retire (s : Manager) (leaseId : Nat) (lease : LeaseEntry) : Manager :=
  lease.requested.foldl unpin { s with leases := s.leases.erase leaseId }

def reportBody (s : Manager) (success : Bool) : Manager × Reply :=
  (if success then s else s.fail "transient module transaction body failed", .accepted)

def resolveEpoch (s : Manager) (answers : Answers) (e : ResidencyEpoch) (committed : Bool) :
    Option Manager :=
  if committed then s.finalizeResidency answers e.owners
  else s.rollbackResidency answers e.owners

def release (s : Manager) (answers : Answers) (leaseId : Nat) (success : Bool) :
    Option (Manager × Reply) :=
  match s.leases.find? leaseId with
  | none => some (s.refuse ("unknown transient module lease: " ++ toString leaseId))
  | some lease =>
    match lease.requested.find? fun id => s.pinsOf id = 0 with
    | some id => some (s.refuse ("transient module pin underflow: " ++ id))
    | none =>
      match lease.epoch, s.epoch with
      | none, _ => some ((s.retire leaseId lease).reportBody success)
      | some _, none => none
      | some serial, some e =>
        if e.serial ≠ serial ∨ e.openLeases = 0 then none
        else
          let committed := e.committed || (success && !lease.restorePrior)
          if e.openLeases = 1 then
            match answers.reserveQuiesce with
            | some thrown =>
              some (s.refuse (thrownText "failed to reserve transient release bookkeeping" thrown))
            | none =>
              match firstFailing answers.quiesce e.affected with
              | some id =>
                some (s.refuse
                  ("failed to quiesce transient module while resolving residency epoch: " ++ id))
              | none =>
                ((s.retire leaseId lease).resolveEpoch answers e committed).map fun s =>
                  { s with epoch := none }.reportBody success
          else
            some ({ s.retire leaseId lease with
              epoch := some { e with committed := committed, openLeases := e.openLeases - 1 }
              }.reportBody success)

end Manager

end ExpertStreaming.Transient
