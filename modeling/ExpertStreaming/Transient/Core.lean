import ExpertStreaming.Transient.Policy

/-! # What the manager is for

The abstract machine behind the manager: which modules are enabled, resident and
pinned, who owns them, which leases are open, and the one change (an epoch of leases or a
policy transaction) that can still be undone. Recency, counters and telemetry are gone.
Every call of the manager is one of the steps below; their guards say what the code has
checked by the time it changes anything.
-/
namespace ExpertStreaming.Transient

open Lib Planner

/-- A module without its recency. -/
structure Held where
  desc : ModuleDesc
  enabled : Bool
  resident : Bool
  pins : Nat
  deriving DecidableEq

def ModuleEntry.held (m : ModuleEntry) : Held := ⟨m.desc, m.enabled, m.resident, m.pins⟩

/-- The abstract state. -/
structure Core where
  budgets : OrdMap Int DeviceBudget
  policy : TransientPolicy
  modules : OrdMap String Held
  live : String → Option Owner
  leases : OrdMap Nat LeaseEntry
  epoch : Option ResidencyEpoch
  transaction : Option PolicyTransaction

def Manager.core (s : Manager) : Core :=
  { budgets := s.budgets
    policy := s.policy
    modules := s.modules.mapWithKey fun _ m => m.held
    live := s.live
    leases := s.leases
    epoch := s.epoch
    transaction := s.transaction }

/-! ## What an undone change must leave as it was -/

/-- A module as a policy and the residency leave it. -/
structure Facet where
  desc : ModuleDesc
  enabled : Bool
  resident : Bool
  deriving DecidableEq

def Held.facet (m : Held) : Facet := ⟨m.desc, m.enabled, m.resident⟩

/-- Flags, budgets, policy and owners. -/
@[ext] structure View where
  budgets : OrdMap Int DeviceBudget
  policy : TransientPolicy
  modules : OrdMap String Facet
  live : String → Option Owner

variable (c : Core)

def Core.view : View :=
  ⟨c.budgets, c.policy, c.modules.mapWithKey fun _ m => m.facet, c.live⟩

variable (v : View)

def View.residentBytes (device : Int) : Nat :=
  v.modules.sumBy fun _ m => if m.resident ∧ m.desc.device = device then m.desc.bytes else 0

def View.Fits : Prop := ∀ device, v.residentBytes device ≤ usableOf v.budgets device

def View.Agrees : Prop :=
  ∀ id m, v.modules.find? id = some m → m.resident = (v.live id).isSome

def Core.totalBytes : Nat := c.modules.sumBy fun _ m => m.desc.bytes

/-! ## Undoing -/

/-- A flag after a list of settings, the last one for a module counting. -/
def flagAfter {τ : Type} (key : τ → String) (flag : τ → Bool) (ts : List τ) (id : String)
    (now : Bool) : Bool :=
  ts.foldl (fun b t => if key t = id then flag t else b) now

def ResidencyTransaction.handles (owners : ResidencyTransaction) :
    List (String × Handle (Option Owner)) :=
  (owners.modules.filter ResidencyTransition.published).map fun t => (t.id, t.handle)

def ResidencyTransaction.prior (owners : ResidencyTransaction) (id : String) (now : Bool) : Bool :=
  flagAfter ResidencyTransition.id ResidencyTransition.priorResident owners.modules id now

def View.undoEpoch (owners : ResidencyTransaction) : View :=
  { v with
    modules := v.modules.mapWithKey fun id m => { m with resident := owners.prior id m.resident }
    live := undoAll v.live owners.handles }

def PolicyTransaction.handles (t : PolicyTransaction) : List (String × Handle (Option Owner)) :=
  (t.modules.filter PolicyTransition.published).filterMap fun m => m.handle.map fun h => (m.id, h)

def View.undoPolicy (t : PolicyTransaction) : View :=
  { budgets := v.budgets.mapWithKey fun device budget => (t.priorBudgets.find? device).getD budget
    policy := t.priorPolicy
    modules := v.modules.mapWithKey fun id m => { m with
      enabled := flagAfter PolicyTransition.id PolicyTransition.priorEnabled t.modules id m.enabled
      resident :=
        flagAfter PolicyTransition.id PolicyTransition.priorResident t.modules id m.resident }
    live := undoAll v.live t.handles }

def Core.base : View :=
  match c.epoch, c.transaction with
  | some e, _ => c.view.undoEpoch e.owners
  | none, some t => if t.state = .published then c.view.undoPolicy t else c.view
  | none, none => c.view

/-! ## The steps -/

namespace Core

def update (f : String → Held → Held) : Core :=
  { c with modules := c.modules.mapWithKey f }

def add (desc : ModuleDesc) (owner : Owner) : Core :=
  { c with
    modules := c.modules.insert desc.id ⟨desc, true, desc.initiallyResident, 0⟩
    live := Function.update c.live desc.id (if desc.initiallyResident then some owner else none) }

def lease (k : Nat) (entry : LeaseEntry) : Core :=
  { c with leases := c.leases.insert k entry }.update fun id m =>
    { m with pins := m.pins + entry.requested.count id }

def retire (k : Nat) (entry : LeaseEntry) : Core :=
  { c with leases := c.leases.erase k }.update fun id m =>
    { m with pins := m.pins - entry.requested.count id }

def move (live : String → Option Owner) (resident : String → Bool → Bool) : Core :=
  { c with live := live }.update fun id m => { m with resident := resident id m.resident }

def setFlags (live : String → Option Owner) (ts : List PolicyTransition)
    (enabled resident : PolicyTransition → Bool) : Core :=
  { c with live := live }.update fun id m => { m with
    enabled := flagAfter PolicyTransition.id enabled ts id m.enabled
    resident := flagAfter PolicyTransition.id resident ts id m.resident }

def setBudgets (budgets : OrdMap Int DeviceBudget) (policy : TransientPolicy) : Core :=
  { c with
    budgets := c.budgets.mapWithKey fun device budget => (budgets.find? device).getD budget
    policy := policy }

abbrev targets (t : PolicyTransaction) (ts : List PolicyTransition)
    (live : String → Option Owner) : Core :=
  (c.setFlags live ts PolicyTransition.targetEnabled PolicyTransition.targetResident).setBudgets
    t.targetBudgets t.targetPolicy

abbrev priors (t : PolicyTransaction) : Core :=
  (c.setFlags (undoAll c.live t.handles) t.modules PolicyTransition.priorEnabled
    PolicyTransition.priorResident).setBudgets t.priorBudgets t.priorPolicy

end Core

namespace Core

theorem update_update (f g : String → Held → Held) :
    (c.update f).update g = c.update fun id m => g id (f id m) := by
  unfold update
  rw [OrdMap.mapWithKey_mapWithKey]

theorem update_congr {c : Core} {f g : String → Held → Held}
    (h : ∀ id m, c.modules.find? id = some m → f id m = g id m) : c.update f = c.update g := by
  unfold update
  rw [OrdMap.mapWithKey_congr h]

theorem move_live (resident : String → Bool → Bool) : c.move c.live resident =
    c.update fun id m => { m with resident := resident id m.resident } := rfl

theorem setFlags_live (ts : List PolicyTransition)
    (enabled resident : PolicyTransition → Bool) : c.setFlags c.live ts enabled resident =
    c.update fun id m => { m with
      enabled := flagAfter PolicyTransition.id enabled ts id m.enabled
      resident := flagAfter PolicyTransition.id resident ts id m.resident } := rfl

theorem update_id : (c.update fun _ m => m) = c := by
  unfold update
  rw [OrdMap.mapWithKey_id fun _ _ _ => rfl]

end Core

/-- What the code has checked of a request: its modules are known and enabled, those that go are
unpinned and not asked for, those that come are not resident. -/
structure Admitted (c : Core) (ids evicted activated : List String) : Prop where
  closed : c.transaction = none
  nodup : ids.Nodup
  enabled : ∀ id ∈ ids, ∃ m, c.modules.find? id = some m ∧ m.enabled = true
  evicted_nodup : evicted.Nodup
  evictable : ∀ id ∈ evicted, id ∉ ids ∧
    ∃ m, c.modules.find? id = some m ∧ m.resident = true ∧ m.pins = 0
  activated_nodup : activated.Nodup
  mem_activated : ∀ id, id ∈ activated ↔
    id ∈ ids ∧ ∃ m, c.modules.find? id = some m ∧ m.resident = false

def residentAfter (evicted activated : List String) (id : String) (now : Bool) : Bool :=
  (now && decide (id ∉ evicted)) || decide (id ∈ activated)

/-- The epoch that a request opens by publishing the owners of its modules. -/
structure Opened (c : Core) (evicted activated : List String) (e : ResidencyEpoch)
    (live : String → Option Owner) : Prop where
  none_open : c.epoch = none
  activated_eq : e.activated = activated
  open_one : e.openLeases = 1
  uncommitted : e.committed = false
  published : e.owners.published = true
  ids : e.owners.modules.map ResidencyTransition.id = evicted ++ activated
  swapped : ∀ t ∈ e.owners.modules, t.published = true ∧ t.handle.swapped = true
  prior : ∀ t ∈ e.owners.modules, ∃ m, c.modules.find? t.id = some m ∧ t.priorResident = m.resident
  undo : undoAll live e.owners.handles = c.live
  gone : ∀ id ∈ evicted, live id = none
  come : ∀ id ∈ activated, (live id).isSome
  other : ∀ id, id ∉ evicted → id ∉ activated → live id = c.live id
  fits : c.totalBytes ≤ u64Max → c.view.Fits →
    (c.move live (residentAfter evicted activated)).view.Fits

/-- A policy transaction before it is published. -/
structure Drafted (c : Core) (t : PolicyTransaction) : Prop where
  state : t.state = .prepared
  sane : t.poisoned = false
  budgets : t.priorBudgets = c.budgets
  policy : t.priorPolicy = c.policy
  nodup : (t.modules.map PolicyTransition.id).Nodup
  covers : ∀ id, (∃ m, c.modules.find? id = some m) ↔ id ∈ t.modules.map PolicyTransition.id
  prior : ∀ tr ∈ t.modules, ∀ m, c.modules.find? tr.id = some m →
    tr.priorEnabled = m.enabled ∧ tr.priorResident = m.resident
  fresh : ∀ tr ∈ t.modules, tr.published = false ∧
    (tr.handle = none → tr.priorResident = tr.targetResident) ∧
    ∀ h, tr.handle = some h → h.swapped = false ∧ h.side.isSome = tr.targetResident
  fits : (∀ id m, c.modules.find? id = some m → c.budgets.contains m.desc.device) →
    (c.targets t t.modules c.live).view.Fits

/-- A publication of prepared owners. -/
structure PublishedFrom (c : Core) (t : PolicyTransaction) (ts : List PolicyTransition)
    (live : String → Option Owner) : Prop where
  same : List.Forall₂ (fun tr tr' => tr'.id = tr.id ∧ tr'.priorEnabled = tr.priorEnabled ∧
    tr'.priorResident = tr.priorResident ∧ tr'.targetEnabled = tr.targetEnabled ∧
    tr'.targetResident = tr.targetResident) t.modules ts
  swapped : ∀ tr ∈ ts, ∀ h, tr.handle = some h → tr.published = true ∧ h.swapped = true
  undo : undoAll live ({ t with modules := ts } : PolicyTransaction).handles = c.live
  kept : ∀ tr ∈ t.modules, tr.handle = none → live tr.id = c.live tr.id
  moved : ∀ tr ∈ t.modules, ∀ h, tr.handle = some h → live tr.id = h.side

def Op.onPolicy : Op → Bool
  | .publishPolicy _ | .rollbackPolicy _ | .finalizePolicy _ | .freePolicy _ => true
  | .registerModule _ | .acquire _ _ | .release _ _ | .preparePolicy _ => false

/-- The steps of the abstract machine. -/
inductive CoreStep : Core → Op → Core → Prop
  | quiet (c op) : CoreStep c op c
  | register (c desc owner) (closed : c.transaction = none)
      (fresh : c.modules.find? desc.id = none) (budgeted : c.budgets.contains desc.device)
      (fits : (c.add desc owner).totalBytes ≤ u64Max →
        (c.add desc owner).view.residentBytes desc.device ≤ usableOf c.budgets desc.device) :
      CoreStep c (.registerModule desc) (c.add desc owner)
  | lease (c requested restorePrior k ids) (admitted : Admitted c ids [] [])
      (free : c.leases.find? k = none)
      (outside : ∀ e, c.epoch = some e → ∀ id ∈ ids, id ∉ e.activated) :
      CoreStep c (.acquire requested restorePrior) (c.lease k ⟨ids, restorePrior, none⟩)
  | join (c requested restorePrior k ids e) (admitted : Admitted c ids [] [])
      (free : c.leases.find? k = none) (running : c.epoch = some e) :
      CoreStep c (.acquire requested restorePrior)
        { c.lease k ⟨ids, restorePrior, some e.serial⟩ with epoch := some (Manager.joined e) }
  | opens (c requested restorePrior k ids evicted activated e live)
      (admitted : Admitted c ids evicted activated) (free : c.leases.find? k = none)
      (opened : Opened c evicted activated e live) :
      CoreStep c (.acquire requested restorePrior)
        { (c.move live (residentAfter evicted activated)).lease k
            ⟨ids, restorePrior, some e.serial⟩ with epoch := some e }
  | returned (c k success entry) (found : c.leases.find? k = some entry)
      (outside : entry.epoch = none) :
      CoreStep c (.release k success) (c.retire k entry)
  | left (c k success entry e) (found : c.leases.find? k = some entry)
      (inside : entry.epoch = some e.serial) (running : c.epoch = some e)
      (several : 2 ≤ e.openLeases) :
      CoreStep c (.release k success) { c.retire k entry with epoch := some { e with
        committed := e.committed || (success && !entry.restorePrior)
        openLeases := e.openLeases - 1 } }
  | commits (c k success entry e) (found : c.leases.find? k = some entry)
      (inside : entry.epoch = some e.serial) (running : c.epoch = some e)
      (last : e.openLeases = 1)
      (decided : (e.committed || (success && !entry.restorePrior)) = true) :
      CoreStep c (.release k success) { c.retire k entry with epoch := none }
  | undoes (c k success entry e) (found : c.leases.find? k = some entry)
      (inside : entry.epoch = some e.serial) (running : c.epoch = some e)
      (last : e.openLeases = 1)
      (decided : (e.committed || (success && !entry.restorePrior)) = false) :
      CoreStep c (.release k success)
        { (c.retire k entry).move (undoAll c.live e.owners.handles) e.owners.prior with
          epoch := none }
  | prepares (c target t) (closed : c.transaction = none) (idle : c.leases.isEmpty)
      (none_open : c.epoch = none) (drafted : Drafted c t) :
      CoreStep c (.preparePolicy target) { c with transaction := some t }
  | publishes (c arg t ts live) (running : c.transaction = some t) (sane : t.poisoned = false)
      (state : t.state = .prepared)
      (published : (t.modules.map PolicyTransition.id).Nodup → PublishedFrom c t ts live) :
      CoreStep c (.publishPolicy arg)
        { c.targets t ts live with
          transaction := some { t with modules := ts, state := .published } }
  | rollsBack (c op t ts) (policy : op.onPolicy = true) (running : c.transaction = some t)
      (sane : t.poisoned = false)
      (state : t.state = .published) :
      CoreStep c op
        { c.priors t with
          transaction := some { t with modules := ts, state := .rolledBack } }
  | finalizes (c arg t) (running : c.transaction = some t) (sane : t.poisoned = false)
      (state : t.state = .published) :
      CoreStep c (.finalizePolicy arg)
        { c with transaction := some { t with state := .finalized } }
  | poisons (c op t ts live) (policy : op.onPolicy = true) (running : c.transaction = some t) :
      CoreStep c op
        { c with
          live := live
          transaction := some { t with modules := ts, poisoned := true } }
  | frees (c arg t) (running : c.transaction = some t) (sane : t.poisoned = false)
      (state : t.state ≠ .published) :
      CoreStep c (.freePolicy arg) { c with transaction := none }

end ExpertStreaming.Transient
