import ExpertStreaming.Transient.Lease

/-! # The transient module manager: policy transactions

A policy says which modules are enabled and which one starts resident. It is changed in
the same steps as an owner: prepare, publish, roll back or finalize, and free. The
transaction's owners are all swapped before a flag changes. The machine at the end of
the file has one operation for every call of the manager.
-/
namespace ExpertStreaming.Transient

open Lib Planner

namespace Manager

/-! ## Preparation -/

/-- The aggregate modules of the two kinds a policy covers. -/
structure Aggregates where
  mtp : Option String := none
  multimodal : Option String := none
  deriving DecidableEq

def findAggregates : List (String × ModuleEntry) → Aggregates → Except String Aggregates
  | [], acc => .ok acc
  | (id, m) :: rest, acc =>
    match m.desc.kind with
    | .mtp =>
      if acc.mtp.isSome then .error "transient policy currently supports one aggregate MTP module"
      else findAggregates rest { acc with mtp := some id }
    | .vision =>
      if acc.multimodal.isSome then
        .error "transient policy currently supports one aggregate multimodal module"
      else findAggregates rest { acc with multimodal := some id }
    | _ => .error "transient policy does not yet cover the registered module kind"

def enablesMtp (target : TransientPolicy) : Bool := target = .shared ∨ target = .mtpOnly

def enablesMultimodal (target : TransientPolicy) : Bool :=
  target = .shared ∨ target = .multimodalOnly

/-- Whether the policy enables a module: one that is not the draft module is the
multimodal one. -/
def targetEnabled (target : TransientPolicy) (aggregates : Aggregates) (id : String) : Bool :=
  if some id = aggregates.mtp then enablesMtp target else enablesMultimodal target

def lastUseOf (s : Manager) (id : String) : Nat :=
  match s.modules.find? id with
  | some m => m.lastUse
  | none => 0

def preferRecent (s : Manager) (preferred : Option String) (candidate : Option String) :
    Option String :=
  match candidate with
  | none => preferred
  | some id =>
    if s.isResident id ∧ (preferred = none ∨
        (preferred.map s.lastUseOf).getD 0 < s.lastUseOf id) then some id
    else preferred

/-- The module that is resident once the policy is published. -/
def preferred (s : Manager) (target : TransientPolicy) (aggregates : Aggregates) :
    Option String :=
  match target with
  | .off => none
  | .mtpOnly => aggregates.mtp
  | .multimodalOnly => aggregates.multimodal
  | .shared =>
    match s.preferRecent (s.preferRecent none aggregates.mtp) aggregates.multimodal with
    | some id => some id
    | none => if aggregates.mtp.isSome then aggregates.mtp else aggregates.multimodal

def requiredBytes (s : Manager) (target : TransientPolicy) (aggregates : Aggregates)
    (device : Int) : Nat :=
  s.modules.toList.foldl (fun required b =>
    if targetEnabled target aggregates b.1 ∧ b.2.desc.device = device then
      max required b.2.desc.bytes
    else required) 0

/-- The budgets under the target policy; `none` when one does not fit a machine word. -/
def targetBudgets (s : Manager) (target : TransientPolicy) (aggregates : Aggregates) :
    Option (OrdMap Int DeviceBudget) :=
  if s.budgets.toList.any fun b =>
      u64Max - b.2.safetyMarginBytes < s.requiredBytes target aggregates b.1 then none
  else some (s.budgets.mapWithKey fun device budget => { budget with
    capacityBytes := s.requiredBytes target aggregates device + budget.safetyMarginBytes })

def policyTransition (target : TransientPolicy) (aggregates : Aggregates)
    (preferred : Option String) (id : String) (m : ModuleEntry) : PolicyTransition :=
  { id := id
    priorEnabled := m.enabled
    targetEnabled := targetEnabled target aggregates id
    priorResident := m.resident
    targetResident := preferred = some id }

def leavingFirst (transitions : List PolicyTransition) : List PolicyTransition :=
  transitions.filter (fun t => ¬ t.targetResident) ++ transitions.filter fun t => t.targetResident

def prepareHandles (answers : Answers) :
    List PolicyTransition → Owner → Except String (List PolicyTransition × Owner)
  | [], next => .ok ([], next)
  | t :: rest, next =>
    if t.priorResident = t.targetResident then
      (prepareHandles answers rest next).map fun r => (t :: r.1, r.2)
    else
      match answers.prepare t.id with
      | some _ => .error ("failed to prepare transient module residency: " ++ t.id)
      | none =>
        (prepareHandles answers rest (next + 1)).map fun r =>
          ({ t with
              handle := some { side := if t.targetResident then some next else none } } :: r.1,
            r.2)

def draftPolicy (s : Manager) (target : TransientPolicy) : Except String PolicyTransaction :=
  (findAggregates s.modules.toList {}).bind fun aggregates =>
  if enablesMtp target ∧ aggregates.mtp = none then
    .error "requested transient policy requires a configured MTP module"
  else if enablesMultimodal target ∧ aggregates.multimodal = none then
    .error "requested transient policy requires a configured multimodal module"
  else
    match s.targetBudgets target aggregates with
    | none => .error "transient policy capacity overflows the safety margin"
    | some budgets =>
      let chosen := s.preferred target aggregates
      match s.modules.toList.find? fun b => ¬ b.2.desc.exactCallbacks ∧
          b.2.resident ≠ decide (chosen = some b.1) with
      | some b => .error ("transient module lacks prepared residency callbacks: " ++ b.1)
      | none =>
        .ok
          { priorPolicy := s.policy
            targetPolicy := target
            generation := s.generation
            priorBudgets := s.budgets
            targetBudgets := budgets
            modules := leavingFirst
              (s.modules.toList.map fun b => policyTransition target aggregates chosen b.1 b.2) }

def changing (transitions : List PolicyTransition) : List String :=
  (transitions.filter fun t => t.priorResident ≠ t.targetResident).map PolicyTransition.id

def preparePolicy (s : Manager) (answers : Answers) (target : TransientPolicy) :
    Manager × Reply :=
  let s := s.countTransaction
  if s.transaction.isSome then
    s.refuse "another transient policy transaction is already open"
  else if ¬ s.leases.isEmpty ∨ s.epoch.isSome then
    s.refuse "transient policy reconfiguration requires no active leases or residency epoch"
  else
    match answers.preparePolicy with
    | some (some what) => s.refuse ("failed to prepare transient policy: " ++ what)
    | some none => s.refuse "unexpected failure while preparing transient policy"
    | none =>
      match s.draftPolicy target with
      | .error message => s.refuse message
      | .ok draft =>
        match firstFailing answers.quiesce (changing draft.modules) with
        | some id =>
          s.refuse ("failed to quiesce transient module for policy preparation: " ++ id)
        | none =>
          match prepareHandles answers draft.modules s.nextOwner with
          | .error message => s.refuse message
          | .ok (modules, next) =>
            ({ s with
                nextOwner := next
                transaction := some { draft with modules := modules } }, .accepted)

/-! ## Publication -/

def publishOne (s : Manager) (t : PolicyTransition) : Manager × PolicyTransition :=
  match t.handle with
  | none => (s, t)
  | some h =>
    let swap := h.publish s.live t.id
    ({ s with live := swap.1 }.countSwap (s.bytesOf t.id),
      { t with handle := some swap.2, published := true })

def rollbackOne (s : Manager) (t : PolicyTransition) : Manager × PolicyTransition :=
  match t.handle with
  | none => (s, t)
  | some h =>
    let swap := h.rollback s.live t.id
    ({ s with live := swap.1 }.countSwap (s.bytesOf t.id),
      { t with handle := some swap.2, published := false })

inductive PolicyPublication where
  | published (s : Manager) (modules : List PolicyTransition)
  | failed (id : String) (restored rolledBackAny : Bool) (s : Manager)
      (modules : List PolicyTransition)

/-- Publishes the prepared owners in order, and rolls them back when one fails, as far as their
callbacks let them. -/
def publishPrepared (answers : Answers) : Manager → List PolicyTransition → PolicyPublication
  | s, [] => .published s []
  | s, t :: rest =>
    if t.handle.isNone then
      match publishPrepared answers s rest with
      | .published s rest => .published s (t :: rest)
      | .failed id restored any s rest => .failed id restored any s (t :: rest)
    else
      match answers.publish t.id with
      | some _ => .failed t.id true false s (t :: rest)
      | none =>
        let done := s.publishOne t
        match publishPrepared answers done.1 rest with
        | .published s rest => .published s (done.2 :: rest)
        | .failed id restored any s rest =>
          match answers.rollback t.id with
          | some _ => .failed id false any s (done.2 :: rest)
          | none =>
            let back := s.rollbackOne done.2
            .failed id restored true back.1 (back.2 :: rest)

/-- The argument of a call on a transaction. A transaction of this manager that exists
is the open one. -/
inductive TransactionArg where
  | null
  | foreign
  | own
  deriving DecidableEq

/-- The transaction a call is about, if it is the open one and in order. -/
def openTransaction (s : Manager) (arg : TransactionArg) (state : TransactionState) :
    Option PolicyTransaction :=
  match arg, s.transaction with
  | .own, some t => if t.poisoned = false ∧ t.state = state then some t else none
  | _, _ => none

/-- Every budget of the manager takes the value a transaction has for it. -/
def withBudgets (s : Manager) (budgets : OrdMap Int DeviceBudget) : Manager :=
  { s with budgets := s.budgets.mapWithKey fun device budget =>
      (budgets.find? device).getD budget }

def setFlags (s : Manager) (id : String) (enabled resident : Bool) : Manager :=
  (s.setEnabled id enabled).setResident id resident

def publishPolicy (s : Manager) (answers : Answers) (arg : TransactionArg) : Manager × Reply :=
  match s.openTransaction arg .prepared with
  | none => s.refuse "invalid prepared transient policy transaction"
  | some t =>
    if t.generation ≠ s.generation then
      s.refuse "invalid prepared transient policy transaction"
    else if ¬ s.leases.isEmpty ∨ s.epoch.isSome then
      s.refuse "transient policy publication lost its exclusive safe point"
    else
      match publishPrepared answers s t.modules with
      | .failed id restored any s modules =>
        { (if any then s.countRollback else s) with
            transaction := some { t with modules := modules, poisoned := !restored } }.refuse
          (if restored then "failed to publish transient module residency: " ++ id
           else "transient policy publication could not restore prior owners")
      | .published s modules =>
        let s := modules.foldl (fun (s : Manager) t =>
          s.setFlags t.id t.targetEnabled t.targetResident) s
        ({ s.withBudgets t.targetBudgets with
            policy := t.targetPolicy
            transaction := some { t with modules := modules, state := .published } }, .accepted)

/-! ## Rollback -/

/-- Publishes again what a failed rollback had already taken back. -/
def republish (answers : Answers) :
    Manager → List PolicyTransition → Manager × List PolicyTransition × Bool
  | s, [] => (s, [], true)
  | s, t :: rest =>
    if t.published ∨ t.handle.isNone then
      let tail := republish answers s rest
      (tail.1, t :: tail.2.1, tail.2.2)
    else
      match answers.publish t.id with
      | some _ =>
        let tail := republish answers s rest
        (tail.1, t :: tail.2.1, false)
      | none =>
        let done := s.publishOne t
        let tail := republish answers done.1 rest
        (tail.1, done.2 :: tail.2.1, tail.2.2)

inductive PolicyRollback where
  | rolledBack (s : Manager) (modules : List PolicyTransition)
  | failed (id : String) (republished : Bool) (s : Manager) (modules : List PolicyTransition)

/-- Rolls the published owners back, the last one first, and publishes them again when one fails.
-/
def rollbackPublished (answers : Answers) (s : Manager) : List PolicyTransition → PolicyRollback
  | [] => .rolledBack s []
  | t :: rest =>
    match rollbackPublished answers s rest with
    | .failed id republished s rest => .failed id republished s (t :: rest)
    | .rolledBack s rest =>
      if t.published = false ∨ t.handle.isNone then .rolledBack s (t :: rest)
      else
        match answers.rollback t.id with
        | some _ =>
          let again := republish answers s rest
          .failed t.id again.2.2 again.1 (t :: again.2.1)
        | none =>
          let back := s.rollbackOne t
          .rolledBack back.1 (back.2 :: rest)

def rollbackPolicy (s : Manager) (answers : Answers) (arg : TransactionArg) : Manager × Reply :=
  match s.openTransaction arg .published with
  | none => s.refuse "invalid published transient policy transaction"
  | some t =>
    match rollbackPublished answers s t.modules with
    | .failed id republished s modules =>
      { s with
          transaction := some { t with modules := modules, poisoned := !republished } }.refuse
        (if republished then "failed to roll back transient module residency: " ++ id
         else "transient policy rollback could not restore published owners")
    | .rolledBack s modules =>
      let s := modules.foldl (fun (s : Manager) t =>
        s.setFlags t.id t.priorEnabled t.priorResident) s
      ({ s.withBudgets t.priorBudgets with
          policy := t.priorPolicy
          transaction := some { t with modules := modules, state := .rolledBack }
          }.countRollback, .accepted)

/-! ## Closing -/

def finalizePolicy (s : Manager) (answers : Answers) (arg : TransactionArg) : Manager × Reply :=
  match s.openTransaction arg .published with
  | none => s.refuse "invalid published transient policy transaction finalization"
  | some t =>
    match t.modules.find? fun m => m.handle.isSome ∧ (answers.finalize m.id).isSome with
    | some m =>
      { s with transaction := some { t with poisoned := true } }.refuse
        ("transient module owner finalization failed: " ++ m.id)
    | none => ({ s with transaction := some { t with state := .finalized } }, .accepted)

/-- The transaction is deleted. Its finalization counts as a change of the manager. -/
def closePolicy (s : Manager) : Manager :=
  { s with
    generation :=
      if s.transaction.map PolicyTransaction.state = some .finalized then s.generation + 1
      else s.generation
    transaction := none }

def freePolicy (s : Manager) (answers : Answers) (arg : TransactionArg) : Manager × Reply :=
  match arg with
  | .null => (s, .accepted)
  | .foreign =>
    (s, .refused "cannot free a poisoned or foreign transient policy transaction")
  | .own =>
    match s.transaction with
    | none => (s, .refused "cannot free a poisoned or foreign transient policy transaction")
    | some t =>
      if t.poisoned then
        (s, .refused "cannot free a poisoned or foreign transient policy transaction")
      else if t.state = .published then
        match s.rollbackPolicy answers .own with
        | (s, .refused message) => (s, .refused message)
        | (s, _) => (s.closePolicy, .accepted)
      else (s.closePolicy, .accepted)

end Manager

/-! ## The machine -/

/-- The calls of the manager. -/
inductive Op where
  | registerModule (desc : ModuleDesc)
  | acquire (requested : List String) (restorePrior : Bool)
  | release (lease : Nat) (success : Bool)
  | preparePolicy (target : TransientPolicy)
  | publishPolicy (arg : Manager.TransactionArg)
  | rollbackPolicy (arg : Manager.TransactionArg)
  | finalizePolicy (arg : Manager.TransactionArg)
  | freePolicy (arg : Manager.TransactionArg)

/-- A call together with what the callbacks answer while it runs. -/
structure Call where
  op : Op
  answers : Answers := {}

/-- One call; `none` when the process aborts. -/
def next (s : Manager) (c : Call) : Option (Manager × Reply) :=
  match c.op with
  | .registerModule desc => some (s.registerModule desc)
  | .acquire requested restorePrior => s.acquire c.answers requested restorePrior
  | .release lease success => s.release c.answers lease success
  | .preparePolicy target => some (s.preparePolicy c.answers target)
  | .publishPolicy arg => some (s.publishPolicy c.answers arg)
  | .rollbackPolicy arg => some (s.rollbackPolicy c.answers arg)
  | .finalizePolicy arg => some (s.finalizePolicy c.answers arg)
  | .freePolicy arg => some (s.freePolicy c.answers arg)

def Step (s : Manager) (label : Call × Reply) (s' : Manager) : Prop :=
  next s label.1 = some (s', label.2)

end ExpertStreaming.Transient
