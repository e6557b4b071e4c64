import ExpertStreaming.Lib.TwoPhase
import ExpertStreaming.Planner.Types
import ExpertStreaming.Rebalance.Tokens

/-! # The rebalance task of the server

The server replaces up to three pools at once: the KV cache, the expert cache and the
transient modules. All changes are prepared, then all are published, and only then is one
of them made final. A step that fails rolls the published ones back and frees every
handle; an exception only frees the handles. The pools enter by their contract.
-/
namespace ExpertStreaming.Rebalance

open Lib Planner

inductive Part where
  | kv
  | expert
  | transient
  deriving DecidableEq

inductive PoolCall where
  | prepare
  | publish
  | rollback
  | finalize
  | free
  deriving DecidableEq

/-- The points of the task between the calls of the pools. -/
inductive Point where
  | reading
  | auditMemory
  | auditPlacement
  | auditSizing
  | afterPrepare (p : Part)
  | afterPublish (p : Part)
  | beforeLogicalPublish
  | lock
  deriving DecidableEq

/-- A step reports failure, or an exception leaves the task. -/
inductive Fault where
  | fails
  | throws
  deriving DecidableEq

structure Slot where
  available : Bool := true
  nPast : Int
  nCtx : Int
  cacheTokens : Tokens

/-- `int32_t(x)` -/
def toInt32 (x : Nat) : Int :=
  if x % 2 ^ 32 < 2 ^ 31 then (x % 2 ^ 32 : Nat) else (x % 2 ^ 32 : Nat) - 2 ^ 32

/-- `size_t(x)` -/
def toSize (x : Int) : Nat := (x % 2 ^ 64).toNat

section

variable (pools : Part → TwoPhase)

structure Server where
  pool : (p : Part) → (pools p).State
  slots : List Slot
  nCtx : Int
  nCtxPublished : Int
  resolvedResourcePlan : String
  hasManager : Bool

structure Task where
  expectedPreviousPlan : String
  scope : String
  replace : Part → Bool
  request : (p : Part) → (pools p).Request
  targetContext : Nat
  targetTransientPolicy : Option TransientPolicy
  previousTransientPolicy : Option TransientPolicy
  targetPlan : String

/-- What the task finds outside of the server's own state, and what goes wrong. -/
structure World where
  deferredTasks : Bool := false
  memoryWithinLimits : Bool := true
  liveKvUnchanged : Bool := true
  kvSizingUnchanged : Bool := true
  choice : (p : Part) → PoolCall → (pools p).Choice
  fault : Point → Option Fault := fun _ => none

inductive Reply where
  | committed
  | failed (message : String)
  | thrown
  deriving DecidableEq

/-- `transaction_scope` with the server it works on. -/
structure Run where
  server : Server pools
  handle : Part → Bool := fun _ => false
  published : Part → Bool := fun _ => false

/-- Why the task stopped before its logical publication. -/
inductive Stop where
  | refused (message : String)
  | thrown
  deriving DecidableEq

/-! ## Checks before the transaction -/

def supportedScopes : List String :=
  ["kv-only", "expert-cache-only", "transient-only", "kv-and-expert", "kv-and-transient",
   "expert-and-transient", "kv-expert-and-transient"]

end

section

variable {pools : Part → TwoPhase}

variable (task : Task pools)

def targetSlotContext (s : Server pools) : Nat :=
  task.targetContext / s.slots.length

def targetCachePrefixes (s : Server pools) : List Nat :=
  if task.replace .kv then
    s.slots.map fun slot => slot.cacheTokens.mediaSafePrefixSize (targetSlotContext task s)
  else []

def check (world : World pools) (s : Server pools) : Except String Unit :=
  if s.resolvedResourcePlan ≠ task.expectedPreviousPlan then
    .error "resource plan changed before owner-thread preparation; retry from a fresh snapshot"
  else if s.slots.any fun slot => !slot.available then
    .error "runtime rebalance requires every server slot to be idle"
  else if world.deferredTasks then
    .error "runtime rebalance requires an empty deferred task queue"
  else if ¬ world.memoryWithinLimits then
    .error "tracked resource memory changed before preparation; retry from a fresh snapshot"
  else if ¬ world.liveKvUnchanged then
    .error "live KV storage changed before preparation; retry from a fresh snapshot"
  else if task.scope ∉ supportedScopes then
    .error "unsupported runtime rebalance scope"
  else if ¬ task.replace .kv ∧ ¬ task.replace .expert ∧ ¬ task.replace .transient then
    .error "runtime rebalance task has no physical operation"
  else if task.replace .kv ∧ ¬ world.kvSizingUnchanged then
    .error "KV preparation sizing changed before allocation; retry from a fresh snapshot"
  else if task.targetContext = 0 ∨ s.slots = [] ∨ task.targetContext % s.slots.length ≠ 0 then
    .error "target context must divide evenly across every server slot"
  else if s.slots.any fun slot => toInt32 (targetSlotContext task s) < slot.nPast then
    .error "target context is smaller than a live slot continuation"
  else if (s.slots.zip (targetCachePrefixes task s)).any fun x => x.2 < toSize x.1.nPast then
    .error "target context would cut through cached media before a live continuation"
  else if task.targetTransientPolicy = none then
    .error "runtime rebalance task has an invalid transient policy"
  else if task.previousTransientPolicy = none then
    .error "previous resource plan has an invalid transient policy"
  else .ok ()

/-! ## The reversible part -/

def Run.setPool (r : Run pools) (p : Part) (state : (pools p).State) : Run pools :=
  { r with server := { r.server with pool := Function.update r.server.pool p state } }

def Point.message : Point → String
  | .reading => ""
  | .auditMemory => "failed to audit prepared KV memory; original resources remain active"
  | .auditPlacement => "failed to audit prepared KV placement; original resources remain active"
  | .auditSizing => "prepared KV memory exceeded native sizing; original resources remain active"
  | .afterPrepare .kv =>
    "injected failure after KV preparation; the original resources remain active"
  | .afterPrepare .expert =>
    "injected failure after expert-cache preparation; the original resources remain active"
  | .afterPrepare .transient =>
    "injected failure after transient preparation; the original resources remain active"
  | .afterPublish .kv =>
    "injected failure after KV publication; the original resources were restored"
  | .afterPublish .expert =>
    "injected failure after expert-cache publication; the original resources were restored"
  | .afterPublish .transient =>
    "injected failure after transient publication; the original resources were restored"
  | .beforeLogicalPublish =>
    "injected failure before logical publication; the original resources were restored"
  | .lock => ""

/-- The steps between two calls of the pools. Reading the task and taking the lock can
only throw. -/
def pass (world : World pools) : List Point → Run pools → Except (Stop × Run pools) (Run pools)
  | [], r => .ok r
  | point :: rest, r =>
    match world.fault point with
    | none => pass world rest r
    | some .throws => .error (.thrown, r)
    | some .fails =>
      if point = .reading ∨ point = .lock then .error (.thrown, r)
      else .error (.refused point.message, r)

def prepareFailed : Part → String
  | .kv => "KV preparation failed; the original resources remain active"
  | .expert => "expert-cache preparation failed; the original resources remain active"
  | .transient => "transient-policy preparation failed; the original resources remain active"

def publishFailed : Part → String
  | .kv => "KV publication failed; the original resources remain active"
  | .expert => "expert-cache publication failed; the original resources were restored"
  | .transient => "transient-policy publication failed; the original resources were restored"

def pointsAfterPrepare : Part → List Point
  | .kv => [.auditMemory, .auditPlacement, .auditSizing, .afterPrepare .kv]
  | .expert => [.afterPrepare .expert]
  | .transient => [.afterPrepare .transient]

def preparePool (world : World pools) (p : Part) (r : Run pools) :
    Except (Stop × Run pools) (Run pools) :=
  if task.replace p then
    if p = .transient ∧ ¬ r.server.hasManager then
      .error (.refused "transient-policy preparation requires configured runtime modules", r)
    else
      let out := (pools p).prepare (task.request p) (world.choice p .prepare) (r.server.pool p)
      let r := r.setPool p out.1
      if out.2 then
        pass world (pointsAfterPrepare p) { r with handle := Function.update r.handle p true }
      else .error (.refused (prepareFailed p), r)
  else .ok r

def publishPool (world : World pools) (p : Part) (r : Run pools) :
    Except (Stop × Run pools) (Run pools) :=
  if task.replace p then
    let out := (pools p).publish (world.choice p .publish) (r.server.pool p)
    let r := r.setPool p out.1
    if out.2 then
      pass world [.afterPublish p] { r with published := Function.update r.published p true }
    else .error (.refused (publishFailed p), r)
  else .ok r

/-- Every step up to the lock under which the change becomes final. -/
def reversible (world : World pools) (r : Run pools) :
    Except (Stop × Run pools) (Run pools) :=
  (pass world [.reading] r).bind fun r =>
  (preparePool task world .kv r).bind fun r =>
  (preparePool task world .expert r).bind fun r =>
  (preparePool task world .transient r).bind fun r =>
  (publishPool task world .kv r).bind fun r =>
  (publishPool task world .expert r).bind fun r =>
  (publishPool task world .transient r).bind fun r =>
  pass world [.beforeLogicalPublish, .lock] r

/-! ## Undoing -/

def undoOrder : List Part := [.transient, .expert, .kv]

def rollBackPool (world : World pools) (acc : Run pools × Bool) (p : Part) : Run pools × Bool :=
  if acc.1.published p then
    let out := (pools p).rollback (world.choice p .rollback) (acc.1.server.pool p)
    ({ acc.1.setPool p out.1 with published := Function.update acc.1.published p false },
      acc.2 && out.2)
  else acc

def rollBack (world : World pools) (r : Run pools) : Run pools × Bool :=
  undoOrder.foldl (rollBackPool world) (r, true)

/-- A handle is freed. A policy transaction that cannot be freed ends the process; a
cache only reports it. -/
def clearPool (world : World pools) (r : Run pools) (p : Part) : Option (Run pools) :=
  if r.handle p then
    let out := (pools p).free (world.choice p .free) (r.server.pool p)
    if p = .transient ∧ out.2 = false then none
    else some { r.setPool p out.1 with handle := Function.update r.handle p false }
  else some r

/-- `transaction_scope::clear` -/
def clear (world : World pools) (r : Run pools) : Option (Run pools) :=
  undoOrder.foldlM (clearPool world) r

def abortTransaction (world : World pools) (r : Run pools) : Option (Run pools) :=
  let back := rollBack world r
  (clear world back.1).bind fun r => if back.2 then some r else none

/-! ## The logical publication -/

/-- A change that cannot be made final any more ends the process. -/
def finalizePool (world : World pools) (r : Run pools) (p : Part) :
    Option (Run pools) :=
  if task.replace p then
    let out := (pools p).finalize (world.choice p .finalize) (r.server.pool p)
    if out.2 then
      some { r.setPool p out.1 with published := Function.update r.published p false }
    else none
  else some { r with published := Function.update r.published p false }

/-- The slots' context, and their cached tokens cut to the prefix found before. -/
def publishSlots (target : Nat) : List Slot → List Nat → Option (List Slot)
  | slot :: rest, size :: sizes =>
    (if size < slot.cacheTokens.tokens.length then
        slot.cacheTokens.shrinkToMediaSafePrefix size
      else some slot.cacheTokens).bind fun tokens =>
      (publishSlots target rest sizes).map
        ({ slot with nCtx := toInt32 target, cacheTokens := tokens } :: ·)
  | slots, _ => some slots

def publishLogical (sizes : List Nat) (s : Server pools) :
    Option (Server pools) :=
  let s :=
    if task.replace .kv then
      (publishSlots (targetSlotContext task s) s.slots sizes).map fun slots =>
        { s with slots := slots, nCtx := toInt32 task.targetContext }
    else some s
  s.map fun s => { s with
    resolvedResourcePlan := task.targetPlan
    nCtxPublished := s.nCtx }

def commit (world : World pools) (sizes : List Nat) (r : Run pools) :
    Option (Run pools) :=
  (undoOrder.foldlM (finalizePool task world) r).bind fun r =>
  (publishLogical task sizes r.server).bind fun s =>
  clear world { r with server := s }

/-- **The task.** `none` is an abort of the process. -/
def rebalance (world : World pools) (s : Server pools) :
    Option (Server pools × Reply) :=
  match check task world s with
  | .error message => some (s, .failed message)
  | .ok () =>
    let sizes := targetCachePrefixes task s
    match reversible task world { server := s } with
    | .error (.refused message, r) =>
      (abortTransaction world r).map fun r => (r.server, .failed message)
    | .error (.thrown, r) => (clear world r).map fun r => (r.server, .thrown)
    | .ok r => (commit task world sizes r).map fun r => (r.server, .committed)

end

end ExpertStreaming.Rebalance
