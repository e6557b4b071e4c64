import Mathlib.Data.String.Basic
import ExpertStreaming.Lib.OrdMap
import ExpertStreaming.Lib.Swap
import ExpertStreaming.Planner.Types

/-! # The transient module manager: state

The manager decides which modules (draft heads, multimodal projectors) are resident on
the devices. It never touches an allocation itself: a module comes with callbacks that
quiesce it and that prepare, publish, roll back and finalize a change of its owner. The
callbacks' own state is part of the model: which owner of every module is live, and for
every prepared change the owner that is kept aside.
-/
namespace ExpertStreaming.Transient

open Lib Planner

inductive ModuleKind where
  | mtp
  | vision
  | audio
  | reranker
  | embedding
  | lora
  deriving DecidableEq

structure DeviceBudget where
  capacityBytes : Nat := 0
  safetyMarginBytes : Nat := 0
  deriving DecidableEq

/-- What a module registers with. A missing `quiesce` callback is one that always
agrees. -/
structure ModuleDesc where
  id : String
  kind : ModuleKind := .mtp
  device : Int := 0
  bytes : Nat := 0
  initiallyResident : Bool := false
  /-- all five prepared residency callbacks are given -/
  exactCallbacks : Bool := true
  deriving DecidableEq

structure ModuleEntry where
  desc : ModuleDesc
  enabled : Bool := true
  resident : Bool := false
  lastUse : Nat := 0
  pins : Nat := 0
  deriving DecidableEq

abbrev Owner := Nat

structure ResidencyTransition where
  id : String
  handle : Handle (Option Owner)
  priorResident : Bool
  targetResident : Bool
  published : Bool := false
  deriving DecidableEq

structure ResidencyTransaction where
  modules : List ResidencyTransition := []
  published : Bool := false
  deriving DecidableEq

/-- A change of residency that its leases commit or undo together; the serial stands for the
pointer. -/
structure ResidencyEpoch where
  serial : Nat
  activated : List String := []
  evicted : List String := []
  affected : List String := []
  owners : ResidencyTransaction
  openLeases : Nat := 0
  committed : Bool := false
  deriving DecidableEq

structure LeaseEntry where
  requested : List String := []
  restorePrior : Bool := true
  epoch : Option Nat := none
  deriving DecidableEq

inductive TransactionState where
  | prepared
  | published
  | rolledBack
  | finalized
  deriving DecidableEq

/-- One module's part of a policy transaction. A module whose residency does not change
has no handle. -/
structure PolicyTransition where
  id : String
  handle : Option (Handle (Option Owner)) := none
  priorEnabled : Bool := true
  targetEnabled : Bool := true
  priorResident : Bool := false
  targetResident : Bool := false
  published : Bool := false
  deriving DecidableEq

structure PolicyTransaction where
  priorPolicy : TransientPolicy := .shared
  targetPolicy : TransientPolicy := .shared
  state : TransactionState := .prepared
  generation : Nat := 0
  priorBudgets : OrdMap Int DeviceBudget
  targetBudgets : OrdMap Int DeviceBudget
  modules : List PolicyTransition := []
  poisoned : Bool := false

structure Telemetry where
  transactions : Nat := 0
  swaps : Nat := 0
  rollbacks : Nat := 0
  failures : Nat := 0
  oomRejections : Nat := 0
  bytesMoved : Nat := 0
  lastFailure : String := ""
  deriving DecidableEq

/-- The manager together with the owners behind its callbacks. -/
structure Manager where
  budgets : OrdMap Int DeviceBudget
  modules : OrdMap String ModuleEntry := OrdMap.empty
  telemetry : Telemetry := {}
  clock : Nat := 0
  nextLeaseId : Nat := 1
  leases : OrdMap Nat LeaseEntry := OrdMap.empty
  epoch : Option ResidencyEpoch := none
  nextSerial : Nat := 0
  policy : TransientPolicy := .shared
  transaction : Option PolicyTransaction := none
  generation : Nat := 0
  /-- the live owner of every module -/
  live : String → Option Owner := fun _ => none
  nextOwner : Owner := 0

/-- Why an allocation for bookkeeping failed: the text of a standard exception, or something else.
-/
abbrev Thrown := Option String

/-- What the callbacks answer during one call; a module's callback runs at most once in it. The
failing ones give the text they report. -/
structure Answers where
  quiesce : String → Bool := fun _ => true
  prepare : String → Option String := fun _ => none
  publish : String → Option String := fun _ => none
  rollback : String → Option String := fun _ => none
  finalize : String → Option String := fun _ => none
  reserveQuiesce : Option Thrown := none
  reserveEpoch : Option Thrown := none
  reserveLease : Option Thrown := none
  preparePolicy : Option Thrown := none

/-- **The contract of the callbacks**: once a publication has succeeded, undoing or
finalizing it does too. -/
structure Answers.Kept (answers : Answers) : Prop where
  rollback : ∀ id, answers.rollback id = none
  finalize : ∀ id, answers.finalize id = none

/-! ## Small operations -/

def usableOf (budgets : OrdMap Int DeviceBudget) (device : Int) : Nat :=
  match budgets.find? device with
  | none => 0
  | some budget =>
    if budget.capacityBytes ≤ budget.safetyMarginBytes then 0
    else budget.capacityBytes - budget.safetyMarginBytes

namespace Manager

variable (s : Manager)

def usableBytes (device : Int) : Nat := usableOf s.budgets device

def residentBytesLocked (device : Int) : Nat :=
  s.modules.toList.foldl (fun sum b =>
    if b.2.resident ∧ b.2.desc.device = device then u64Add sum b.2.desc.bytes else sum) 0

def fail (message : String) : Manager :=
  { s with telemetry := { s.telemetry with
      failures := s.telemetry.failures + 1, lastFailure := message } }

def countTransaction : Manager :=
  { s with telemetry := { s.telemetry with transactions := s.telemetry.transactions + 1 } }

def countOom : Manager :=
  { s with telemetry := { s.telemetry with oomRejections := s.telemetry.oomRejections + 1 } }

def countRollback : Manager :=
  { s with telemetry := { s.telemetry with rollbacks := s.telemetry.rollbacks + 1 } }

def countSwap (bytes : Nat) : Manager :=
  { s with telemetry := { s.telemetry with
      swaps := s.telemetry.swaps + 1, bytesMoved := s.telemetry.bytesMoved + bytes } }

def bytesOf (id : String) : Nat :=
  match s.modules.find? id with
  | some m => m.desc.bytes
  | none => 0

/-- Sets a module's residency; a module that is resident then counts as used now. -/
def setResident (id : String) (resident : Bool) : Manager :=
  { s with
    modules := s.modules.modify id fun m =>
      { m with resident := resident, lastUse := if resident then s.clock + 1 else m.lastUse }
    clock := if resident then s.clock + 1 else s.clock }

def setEnabled (id : String) (enabled : Bool) : Manager :=
  { s with modules := s.modules.modify id fun m => { m with enabled := enabled } }

def pin (id : String) : Manager :=
  { s with
    modules := s.modules.modify id fun m => { m with lastUse := s.clock + 1, pins := m.pins + 1 }
    clock := s.clock + 1 }

def unpin (id : String) : Manager :=
  { s with modules := s.modules.modify id fun m => { m with pins := m.pins - 1 } }

end Manager

end ExpertStreaming.Transient
