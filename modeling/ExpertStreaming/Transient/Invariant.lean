import ExpertStreaming.Transient.RefinePolicy

/-! # Invariants of the abstract machine

Two views are kept sound at once: the one that is there and the one to which the open
change would be undone. Each step changes one of them at a time or makes one the other.
-/
namespace ExpertStreaming.Transient

open Lib Planner OrdMap Option Transient.Core

namespace Core

def Sane (c : Core) : Prop := ∀ t, c.transaction = some t → t.poisoned = false

def requests (c : Core) (id : String) : Nat :=
  c.leases.sumBy fun _ l => if id ∈ l.requested then 1 else 0

def members (c : Core) (serial : Nat) : Nat :=
  c.leases.sumBy fun _ l => if l.epoch = some serial then 1 else 0

end Core

def ResidencyTransaction.ids (owners : ResidencyTransaction) : List String :=
  owners.modules.map ResidencyTransition.id

structure EpochInv (c : Core) (e : ResidencyEpoch) : Prop where
  published : e.owners.published = true
  members : e.openLeases = c.members e.serial
  running : 0 < e.openLeases
  known : ∀ id ∈ e.owners.ids, ∃ m, c.modules.find? id = some m
  gone : ∀ id ∈ e.owners.ids, id ∉ e.activated → ∀ m, c.modules.find? id = some m →
    m.resident = false
  outside : ∀ k l, c.leases.find? k = some l → l.epoch = none → ∀ id ∈ l.requested,
    id ∉ e.owners.ids

/-- What holds of modules and leases whatever change is open. -/
structure Sound (c : Core) : Prop where
  budgeted : ∀ id m, c.modules.find? id = some m → c.budgets.contains m.desc.device = true
  pins : ∀ id m, c.modules.find? id = some m → m.pins = c.requests id
  nodup : ∀ k l, c.leases.find? k = some l → l.requested.Nodup
  held : ∀ k l, c.leases.find? k = some l → ∀ id ∈ l.requested, ∃ m,
    c.modules.find? id = some m ∧ m.enabled = true ∧ m.resident = true

/-- **The invariant of the abstract machine.** -/
structure Inv (c : Core) : Prop extends Sound c where
  agrees : c.Sane → c.view.Agrees
  baseAgrees : c.Sane → c.base.Agrees
  joined : ∀ k l serial, c.leases.find? k = some l → l.epoch = some serial →
    ∃ e, c.epoch = some e ∧ e.serial = serial
  epoch : ∀ e, c.epoch = some e → EpochInv c e
  exclusive : ∀ t, c.transaction = some t → c.leases.isEmpty = true ∧ c.epoch = none
  drafted : ∀ t, c.transaction = some t → t.poisoned = false → t.state = .prepared → Drafted c t
  swapped : ∀ t, c.transaction = some t → t.poisoned = false → t.state = .published →
    ∀ tr ∈ t.modules, Swapped tr

variable {c : Core} {k : Nat} {entry l : LeaseEntry} {id : String} {live : String → Option Owner}
  {resident enabled : PolicyTransition → Bool} {ids evicted activated : List String}
  {restorePrior : Bool} {e : ResidencyEpoch} {desc : ModuleDesc} {owner : Owner}
  {t : PolicyTransaction} {budgets : OrdMap Int DeviceBudget} {ts : List PolicyTransition}

theorem Inv.ordered (h : Inv c) : c.Ordered :=
  ⟨fun t ht hsane hstate tr htr => ⟨((h.drafted t ht hsane hstate).fresh tr htr).1,
    fun handle hh => (((h.drafted t ht hsane hstate).fresh tr htr).2.2 handle hh).1⟩, h.swapped⟩

/-! ## Views of changed states -/

namespace Core

variable {c : Core} {f : String → Held → Held}

theorem view_update (h : ∀ id m, (f id m).facet = m.facet) :
    (c.update f).view = c.view := by
  unfold view update
  dsimp only
  rw [mapWithKey_mapWithKey]
  simp only [h]

theorem view_lease (c : Core) (k : Nat) (entry : LeaseEntry) : (c.lease k entry).view = c.view :=
  view_update fun _ _ => rfl

theorem view_retire (c : Core) (k : Nat) (entry : LeaseEntry) : (c.retire k entry).view = c.view :=
  view_update fun _ _ => rfl

theorem base_of_idle (hepoch : c.epoch = none) (hclosed : c.transaction = none) :
    c.base = c.view := by
  rw [base, hepoch, hclosed]

theorem base_of_epoch (h : c.epoch = some e) :
    c.base = c.view.undoEpoch e.owners := by
  rw [base, h]

theorem base_of_published (hepoch : c.epoch = none)
    (h : c.transaction = some t) (hstate : t.state = .published) :
    c.base = c.view.undoPolicy t := by
  rw [base, hepoch, h]
  exact if_pos hstate

theorem base_of_unpublished (hepoch : c.epoch = none)
    (h : c.transaction = some t) (hstate : t.state ≠ .published) : c.base = c.view := by
  rw [base, hepoch, h]
  exact if_neg hstate

theorem base_setTransaction (c : Core) (t : PolicyTransaction) (hepoch : c.epoch = none) :
    ({ c with transaction := some t } : Core).base =
      if t.state = .published then c.view.undoPolicy t else c.view := by
  unfold base
  dsimp only
  rw [hepoch]
  rfl

theorem base_lease (c : Core) (k : Nat) (entry : LeaseEntry) : (c.lease k entry).base = c.base := by
  rw [base, base, view_lease]
  rfl

theorem base_retire (c : Core) (k : Nat) (entry : LeaseEntry) :
    (c.retire k entry).base = c.base := by
  rw [base, base, view_retire]
  rfl

theorem base_setEpoch {c' : Core} {e' : ResidencyEpoch} (he : c.epoch = some e)
    (howners : e'.owners = e.owners) (hview : c'.view = c.view) :
    ({ c' with epoch := some e' } : Core).base = c.base := by
  rw [base_of_epoch he, ← howners, ← hview]
  rfl

theorem find?_update :
    (c.update f).modules.find? id = (c.modules.find? id).map (f id) :=
  find?_mapWithKey f c.modules id

theorem sane_of_closed (h : c.transaction = none) : c.Sane := by
  intro t ht
  rw [h] at ht
  cases ht

end Core

/-! ## Leases -/

theorem Core.sumBy_lease (hfree : c.leases.find? k = none) (f : Nat → LeaseEntry → Nat) :
    (c.lease k entry).leases.sumBy f = c.leases.sumBy f + f k entry :=
  (sumBy_insert f entry hfree).trans (Nat.add_comm _ _)

theorem Core.sumBy_retire (hfound : c.leases.find? k = some entry) (f : Nat → LeaseEntry → Nat) :
    c.leases.sumBy f = (c.retire k entry).leases.sumBy f + f k entry :=
  (sumBy_erase f hfound).trans (Nat.add_comm _ _)

theorem Core.members_lease (hfree : c.leases.find? k = none) (serial : Nat) :
    (c.lease k entry).members serial =
      c.members serial + if entry.epoch = some serial then 1 else 0 :=
  sumBy_lease hfree _

theorem Core.members_retire (hfound : c.leases.find? k = some entry) (serial : Nat) :
    c.members serial =
      (c.retire k entry).members serial + if entry.epoch = some serial then 1 else 0 :=
  sumBy_retire hfound _

theorem find?_lease {k'} (h : (c.lease k entry).leases.find? k' = some l) :
    l = entry ∨ c.leases.find? k' = some l := by
  have h : (c.leases.insert k entry).find? k' = some l := h
  rw [find?_insert] at h
  split at h
  · exact .inl (some.inj h).symm
  · exact .inr h

theorem find?_retire {k'} (h : (c.retire k entry).leases.find? k' = some l) :
    k' ≠ k ∧ c.leases.find? k' = some l := by
  have h : (c.leases.erase k).find? k' = some l := h
  rw [find?_erase] at h
  split at h
  · cases h
  · exact ⟨‹_›, h⟩

theorem Sound.pinned (h : Sound c) (hl : c.leases.find? k = some l) (hid : id ∈ l.requested) {m}
    (hm : c.modules.find? id = some m) : 0 < m.pins := by
  rw [h.pins id m hm]
  have hle := le_sumBy (fun _ (l : LeaseEntry) => if id ∈ l.requested then 1 else 0) hl
  rw [if_pos hid] at hle
  exact hle

theorem Sound.update {c' : Core} {f : String → Held → Held} (h : Sound c)
    (hbudgets : ∀ device, c'.budgets.contains device = c.budgets.contains device)
    (hfind : ∀ id, c'.modules.find? id = (c.modules.find? id).map (f id))
    (hdesc : ∀ id m, (f id m).desc = m.desc)
    (hpins : ∀ id m, c.modules.find? id = some m → (f id m).pins = c'.requests id)
    (hleases : ∀ k l, c'.leases.find? k = some l → l.requested.Nodup ∧ ∀ id ∈ l.requested,
      ∃ m, c.modules.find? id = some m ∧ (f id m).enabled = true ∧ (f id m).resident = true) :
    Sound c' := by
  refine ⟨?_, ?_, fun k l hl => (hleases k l hl).1, ?_⟩
  · intro id m hm
    obtain ⟨m', hm', rfl⟩ := map_eq_some_iff.mp ((hfind id).symm.trans hm)
    rw [hdesc, hbudgets]
    exact h.budgeted id m' hm'
  · intro id m hm
    obtain ⟨m', hm', rfl⟩ := map_eq_some_iff.mp ((hfind id).symm.trans hm)
    exact hpins id m' hm'
  · intro k l hl id hid
    obtain ⟨m, hm, hflags⟩ := (hleases k l hl).2 id hid
    exact ⟨f id m, (hfind id).trans (congrArg _ hm), hflags⟩

theorem Sound.withEpoch (h : Sound c) (x : Option ResidencyEpoch) : Sound { c with epoch := x } :=
  { h with }

theorem Sound.lease (h : Sound c)
    (hnodup : entry.requested.Nodup) (hfree : c.leases.find? k = none)
    (hheld : ∀ id ∈ entry.requested, ∃ m, c.modules.find? id = some m ∧ m.enabled = true ∧
      m.resident = true) : Sound (c.lease k entry) := by
  refine h.update (fun _ => rfl) (fun _ => find?_update) (fun _ _ => rfl) ?_ ?_
  · intro id m hm
    refine Eq.trans ?_ (sumBy_lease hfree _).symm
    rw [← hnodup.count]
    exact congrArg (· + entry.requested.count id) (h.pins id m hm)
  · intro k' l hl
    rcases find?_lease hl with rfl | hl
    · exact ⟨hnodup, hheld⟩
    · exact ⟨h.nodup k' l hl, h.held k' l hl⟩

theorem Sound.retire (h : Sound c) (hfound : c.leases.find? k = some entry) :
    Sound (c.retire k entry) := by
  refine h.update (fun _ => rfl) (fun _ => find?_update) (fun _ _ => rfl) ?_ ?_
  · intro id m hm
    refine Nat.sub_eq_of_eq_add ?_
    rw [h.pins id m hm, (h.nodup k entry hfound).count]
    exact sumBy_retire hfound _
  · intro k' l hl
    have hl := (find?_retire hl).2
    exact ⟨h.nodup k' l hl, h.held k' l hl⟩

theorem Sound.move (h : Sound c) {resident}
    (hheld : ∀ k l, c.leases.find? k = some l → ∀ id ∈ l.requested, resident id true = true) :
    Sound (c.move live resident) := by
  refine h.update (fun _ => rfl) (fun _ => find?_update) (fun _ _ => rfl) h.pins ?_
  refine fun k l hl => ⟨h.nodup k l hl, fun id hid => ?_⟩
  obtain ⟨m, hm, henabled, hresident⟩ := h.held k l hl id hid
  refine ⟨m, hm, henabled, ?_⟩
  dsimp only
  rw [hresident]
  exact hheld k l hl id hid

/-! ## Steps without a policy transaction -/

theorem Inv.of_closed (hsound : Sound c) (hclosed : c.transaction = none)
    (hagrees : c.view.Agrees) (hbaseAgrees : c.base.Agrees)
    (hjoined : ∀ k l serial, c.leases.find? k = some l → l.epoch = some serial →
      ∃ e, c.epoch = some e ∧ e.serial = serial)
    (hepoch : ∀ e, c.epoch = some e → EpochInv c e) : Inv c := by
  have hnone : ∀ t, c.transaction ≠ some t := fun t ht => by
    rw [hclosed] at ht
    cases ht
  exact
    { toSound := hsound
      agrees := fun _ => hagrees
      baseAgrees := fun _ => hbaseAgrees
      joined := hjoined
      epoch := hepoch
      exclusive := fun t ht => absurd ht (hnone t)
      drafted := fun t ht => absurd ht (hnone t)
      swapped := fun t ht => absurd ht (hnone t) }

theorem Admitted.held (h : Admitted c ids [] [])
    (hid : id ∈ ids) : ∃ m, c.modules.find? id = some m ∧ m.enabled = true ∧
      m.resident = true := by
  obtain ⟨m, hm, henabled⟩ := h.enabled id hid
  refine ⟨m, hm, henabled, ?_⟩
  by_contra hresident
  have := (h.mem_activated id).mpr ⟨hid, m, hm, Bool.not_eq_true _ ▸ hresident⟩
  cases this

theorem EpochInv.update {c' : Core} {e' : ResidencyEpoch} {f : String → Held → Held}
    (h : EpochInv c e) (hfind : ∀ id, c'.modules.find? id = (c.modules.find? id).map (f id))
    (hresident : ∀ id m, (f id m).resident = m.resident) (howners : e'.owners = e.owners)
    (hactivated : e'.activated = e.activated) (hmembers : e'.openLeases = c'.members e'.serial)
    (hrunning : 0 < e'.openLeases)
    (houtside : ∀ k l, c'.leases.find? k = some l → l.epoch = none → ∀ id ∈ l.requested,
      id ∉ e.owners.ids) : EpochInv c' e' := by
  refine ⟨howners ▸ h.published, hmembers, hrunning, fun id hid => ?_, fun id hid hnew m hm => ?_,
    howners ▸ houtside⟩
  · obtain ⟨m, hm⟩ := h.known id (howners ▸ hid)
    exact ⟨_, (hfind id).trans (congrArg _ hm)⟩
  · obtain ⟨m', hm', rfl⟩ := map_eq_some_iff.mp ((hfind id).symm.trans hm)
    rw [hresident]
    exact h.gone id (howners ▸ hid) (hactivated ▸ hnew) m' hm'

theorem Inv.lease_step (h : Inv c)
    (hadmitted : Admitted c ids [] []) (hfree : c.leases.find? k = none)
    (houtside : ∀ e, c.epoch = some e → ∀ id ∈ ids, id ∉ e.activated) :
    Inv (c.lease k ⟨ids, restorePrior, none⟩) := by
  have hsane : c.Sane := sane_of_closed hadmitted.closed
  have hview := c.view_lease k ⟨ids, restorePrior, none⟩
  have hbase := c.base_lease k ⟨ids, restorePrior, none⟩
  have hheld := fun id (hid : id ∈ ids) => hadmitted.held hid
  refine .of_closed (h.toSound.lease hadmitted.nodup hfree hheld) hadmitted.closed
    (hview ▸ h.agrees hsane) (hbase ▸ h.baseAgrees hsane) ?_ ?_
  · intro k' l serial hl hserial
    rcases find?_lease hl with rfl | hl
    · cases hserial
    · exact h.joined k' l serial hl hserial
  · intro e he
    have hinv := h.epoch e he
    refine hinv.update (fun _ => find?_update) (fun _ _ => rfl) rfl rfl ?_ hinv.running
      fun k' l hl hnone id hid => ?_
    · rw [members_lease hfree]
      exact hinv.members
    · rcases find?_lease hl with rfl | hl
      · -- what an epoch evicted is not resident, and what it loaded makes a lease join it
        intro haffected
        obtain ⟨m, hm, -, hresident⟩ := hheld id hid
        rw [hinv.gone id haffected (houtside e he id hid) m hm] at hresident
        cases hresident
      · exact hinv.outside k' l hl hnone id hid

theorem Inv.join_step (h : Inv c) (hadmitted : Admitted c ids [] [])
    (hfree : c.leases.find? k = none) (he : c.epoch = some e) :
    Inv { c.lease k ⟨ids, restorePrior, some e.serial⟩ with epoch := some (Manager.joined e) } := by
  have hsane : c.Sane := sane_of_closed hadmitted.closed
  have hinv := h.epoch e he
  have hview : ({ c.lease k ⟨ids, restorePrior, some e.serial⟩ with
      epoch := some (Manager.joined e) } : Core).view = c.view := c.view_lease k _
  have hbase : ({ c.lease k ⟨ids, restorePrior, some e.serial⟩ with
      epoch := some (Manager.joined e) } : Core).base = c.base :=
    base_setEpoch he rfl (c.view_lease k _)
  have hsound : Sound (c.lease k ⟨ids, restorePrior, some e.serial⟩) :=
    h.toSound.lease hadmitted.nodup hfree fun id hid => hadmitted.held hid
  refine .of_closed (hsound.withEpoch _) hadmitted.closed (hview ▸ h.agrees hsane)
    (hbase ▸ h.baseAgrees hsane) ?_ ?_
  · intro k' l serial hl hserial
    rcases find?_lease hl with rfl | hl
    · exact ⟨_, rfl, some.inj hserial⟩
    · obtain ⟨e', he', rfl⟩ := h.joined k' l serial hl hserial
      rw [he] at he'
      cases he'
      exact ⟨_, rfl, rfl⟩
  · intro e' he'
    cases he'
    refine hinv.update (fun _ => find?_update) (fun _ _ => rfl) rfl rfl ?_ (Nat.succ_pos _)
      fun k' l hl hnone id hid => ?_
    · refine Eq.trans ?_ (members_lease hfree e.serial).symm
      rw [if_pos rfl]
      exact congrArg (· + 1) hinv.members
    · rcases find?_lease hl with rfl | hl
      · cases hnone
      · exact hinv.outside k' l hl hnone id hid

theorem flagAfter_of_all {τ : Type} {key : τ → String} {flag : τ → Bool} {ts : List τ}
    {b : Bool} (hmem : id ∈ ts.map key) (h : ∀ t ∈ ts, key t = id → flag t = b) (now : Bool) :
    flagAfter key flag ts id now = b := by
  induction ts generalizing now with
  | nil => cases hmem
  | cons t rest ih =>
    have hrest := fun t' (ht' : t' ∈ rest) => h t' (List.mem_cons_of_mem _ ht')
    rw [flagAfter, List.foldl_cons]
    by_cases hlater : id ∈ rest.map key
    · exact ih hlater hrest _
    · refine (flagAfter_of_not_mem hlater _).trans ?_
      obtain ⟨t', ht', hkey⟩ := List.mem_map.mp hmem
      rcases List.mem_cons.mp ht' with rfl | ht'
      · rw [if_pos hkey, h t' (by simp) hkey]
      · exact absurd (List.mem_map.mpr ⟨t', ht', hkey⟩) hlater

theorem Opened.undo_view (h : Opened c evicted activated e live) :
    (c.move live (residentAfter evicted activated)).view.undoEpoch e.owners = c.view := by
  apply View.ext
  · rfl
  · rfl
  · unfold View.undoEpoch view move update
    dsimp only
    rw [mapWithKey_mapWithKey, mapWithKey_mapWithKey]
    apply mapWithKey_congr
    intro id m hm
    have hprior : e.owners.prior id (residentAfter evicted activated id m.resident) =
        m.resident := by
      by_cases hid : id ∈ e.owners.modules.map ResidencyTransition.id
      · apply flagAfter_of_all hid
        intro t ht hkey
        obtain ⟨m', hm', hflag⟩ := h.prior t ht
        rw [hkey, hm] at hm'
        cases hm'
        exact hflag
      · refine (flagAfter_of_not_mem hid _).trans ?_
        rw [h.ids, List.mem_append, not_or] at hid
        simp [residentAfter, hid.1, hid.2]
    simp only [Held.facet, hprior]
  · exact h.undo

theorem Opened.base_eq (h : Opened c evicted activated e live) (k : Nat) (entry : LeaseEntry) :
    ({ (c.move live (residentAfter evicted activated)).lease k entry with
      epoch := some e } : Core).base = c.view := by
  refine Eq.trans ?_ h.undo_view
  rw [← view_lease _ k entry]
  rfl

theorem Inv.unmoved (h : Inv c) (hadmitted : Admitted c ids evicted activated)
    (hl : c.leases.find? k = some l) (hid : id ∈ l.requested) :
    id ∉ evicted ∧ id ∉ activated := by
  obtain ⟨m, hm, -, hresident⟩ := h.held k l hl id hid
  refine ⟨fun hout => ?_, fun hin => ?_⟩
  · obtain ⟨-, m', hm', -, hpins⟩ := hadmitted.evictable id hout
    rw [hm] at hm'
    cases hm'
    have := h.toSound.pinned hl hid hm
    omega
  · obtain ⟨-, m', hm', hgone⟩ := (hadmitted.mem_activated id).mp hin
    rw [hm] at hm'
    cases hm'
    rw [hresident] at hgone
    cases hgone

theorem Inv.open_step (h : Inv c) (hadmitted : Admitted c ids evicted activated)
    (hfree : c.leases.find? k = none) (hopened : Opened c evicted activated e live) :
    Inv { (c.move live (residentAfter evicted activated)).lease k
      ⟨ids, restorePrior, some e.serial⟩ with epoch := some e } := by
  have hsane : c.Sane := sane_of_closed hadmitted.closed
  have hview : ({ (c.move live (residentAfter evicted activated)).lease k
      ⟨ids, restorePrior, some e.serial⟩ with epoch := some e } : Core).view =
      (c.move live (residentAfter evicted activated)).view := view_lease _ k _
  have hbase := hopened.base_eq k ⟨ids, restorePrior, some e.serial⟩
  -- no lease is in an epoch yet
  have hnone : ∀ k' l, c.leases.find? k' = some l → l.epoch = none := by
    intro k' l hl
    cases hl' : l.epoch with
    | none => rfl
    | some serial =>
      obtain ⟨e', he', -⟩ := h.joined k' l serial hl hl'
      rw [hopened.none_open] at he'
      cases he'
  have hmoved : Sound (c.move live (residentAfter evicted activated)) := by
    refine h.toSound.move (fun k' l hl id hid => ?_)
    simp [residentAfter, (h.unmoved hadmitted hl hid).1]
  have hsound : Sound ((c.move live (residentAfter evicted activated)).lease k
      ⟨ids, restorePrior, some e.serial⟩) := by
    refine hmoved.lease hadmitted.nodup hfree fun id hid => ?_
    obtain ⟨m, hm, henabled⟩ := hadmitted.enabled id hid
    refine ⟨{ m with resident := residentAfter evicted activated id m.resident },
      find?_update.trans (congrArg _ hm), henabled, ?_⟩
    cases hresident : m.resident with
    | true =>
      have hstays : id ∉ evicted := fun hout => (hadmitted.evictable id hout).1 hid
      simp [residentAfter, hstays]
    | false =>
      have hloads : id ∈ activated := (hadmitted.mem_activated id).mpr ⟨hid, m, hm, hresident⟩
      simp [residentAfter, hloads]
  have hagrees : (c.move live (residentAfter evicted activated)).view.Agrees := by
    intro id f hf
    have hold := h.agrees hsane id
    simp only [view, move, update, find?_mapWithKey, map_map,
      map_eq_some_iff] at hf hold
    obtain ⟨m, hm, rfl⟩ := hf
    have hold := hold m.facet ⟨m, hm, rfl⟩
    change residentAfter evicted activated id m.resident = (live id).isSome
    by_cases hin : id ∈ activated
    · simp [residentAfter, hin, hopened.come id hin]
    · by_cases hout : id ∈ evicted
      · simp [residentAfter, hin, hout, hopened.gone id hout]
      · rw [hopened.other id hout hin, ← hold]
        simp [residentAfter, hin, hout, Held.facet]
  refine .of_closed (hsound.withEpoch _) hadmitted.closed (hview ▸ hagrees)
    (hbase ▸ h.agrees hsane) ?_ ?_
  · intro k' l serial hl hserial
    rcases find?_lease hl with rfl | hl
    · exact ⟨_, rfl, some.inj hserial⟩
    · rw [hnone k' l hl] at hserial
      cases hserial
  · intro e' he'
    cases he'
    have hzero : (c.move live (residentAfter evicted activated)).members e.serial = 0 :=
      sumBy_eq_zero fun k' l hl => by simp [hnone k' l hl]
    have hids : e.owners.ids = evicted ++ activated := hopened.ids
    refine ⟨hopened.published, ?_, by rw [hopened.open_one]; exact Nat.one_pos, fun id hid => ?_,
      fun id hid hnew m hm => ?_, fun k' l hl hl' id hid => ?_⟩
    · refine Eq.trans ?_ (members_lease (c := c.move live _) hfree e.serial).symm
      rw [hzero, if_pos rfl, hopened.open_one]
    · have hknown : ∃ m, c.modules.find? id = some m := by
        rw [hids, List.mem_append] at hid
        rcases hid with hid | hid
        · obtain ⟨-, m, hm, -⟩ := hadmitted.evictable id hid
          exact ⟨m, hm⟩
        · obtain ⟨-, m, hm, -⟩ := (hadmitted.mem_activated id).mp hid
          exact ⟨m, hm⟩
      obtain ⟨m, hm⟩ := hknown
      exact ⟨_, find?_update.trans (congrArg _ (find?_update.trans (congrArg _ hm)))⟩
    · rw [hids, List.mem_append] at hid
      rw [hopened.activated_eq] at hnew
      obtain ⟨m₁, hm₁, rfl⟩ := map_eq_some_iff.mp (find?_update.symm.trans hm)
      obtain ⟨m₂, hm₂, rfl⟩ := map_eq_some_iff.mp (find?_update.symm.trans hm₁)
      simp [residentAfter, hnew, hid.resolve_right hnew]
    · rcases find?_lease hl with rfl | hl
      · cases hl'
      · rw [hids, List.mem_append, not_or]
        exact h.unmoved hadmitted hl hid

theorem Inv.closed_of_lease (h : Inv c)
    (hl : c.leases.find? k = some l) : c.transaction = none := by
  cases ht : c.transaction with
  | none => rfl
  | some t =>
    rw [isEmpty_iff.mp (h.exclusive t ht).1 k] at hl
    cases hl

theorem Inv.return_step (h : Inv c)
    (hfound : c.leases.find? k = some entry) (hnone : entry.epoch = none) :
    Inv (c.retire k entry) := by
  have hclosed := h.closed_of_lease hfound
  have hsane : c.Sane := sane_of_closed hclosed
  have hview := c.view_retire k entry
  have hbase := c.base_retire k entry
  refine .of_closed (h.toSound.retire hfound) hclosed (hview ▸ h.agrees hsane)
    (hbase ▸ h.baseAgrees hsane) ?_ ?_
  · intro k' l serial hl hserial
    exact h.joined k' l serial (find?_retire hl).2 hserial
  · intro e he
    have hinv := h.epoch e he
    have hmembers := members_retire hfound e.serial
    simp only [hnone, reduceCtorEq, if_false, Nat.add_zero] at hmembers
    exact hinv.update (fun _ => find?_update) (fun _ _ => rfl) rfl rfl
      (hinv.members.trans hmembers) hinv.running fun k' l hl => hinv.outside k' l (find?_retire hl).2

theorem Inv.leave_step (h : Inv c) {committed : Bool} (hfound : c.leases.find? k = some entry)
    (hinside : entry.epoch = some e.serial) (he : c.epoch = some e) (hseveral : 2 ≤ e.openLeases) :
    Inv { c.retire k entry with epoch := some { e with
      committed := committed, openLeases := e.openLeases - 1 } } := by
  have hclosed := h.closed_of_lease hfound
  have hsane : c.Sane := sane_of_closed hclosed
  have hview := c.view_retire k entry
  have hbase : ({ c.retire k entry with epoch := some { e with
      committed := committed, openLeases := e.openLeases - 1 } } : Core).base = c.base :=
    base_setEpoch he rfl hview
  refine .of_closed ((h.toSound.retire hfound).withEpoch _) hclosed (hview ▸ h.agrees hsane)
    (hbase ▸ h.baseAgrees hsane) ?_ ?_
  · intro k' l serial hl hserial
    have hl : (c.retire k entry).leases.find? k' = some l := hl
    obtain ⟨e', he', rfl⟩ := h.joined k' l serial (find?_retire hl).2 hserial
    rw [he] at he'
    cases he'
    exact ⟨_, rfl, rfl⟩
  · intro e' he'
    cases he'
    have hinv := h.epoch e he
    have hmembers := members_retire hfound e.serial
    rw [hinside, if_pos rfl, ← hinv.members] at hmembers
    refine hinv.update (fun _ => find?_update) (fun _ _ => rfl) rfl rfl ?_
      (by dsimp only; omega) fun k' l hl => ?_
    · exact Nat.sub_eq_of_eq_add hmembers
    · have hl : (c.retire k entry).leases.find? k' = some l := hl
      exact hinv.outside k' l (find?_retire hl).2

theorem Inv.outside_of_last (h : Inv c) (hfound : c.leases.find? k = some entry)
    (hinside : entry.epoch = some e.serial) (he : c.epoch = some e) (hlast : e.openLeases = 1) {k'}
    (hl : (c.retire k entry).leases.find? k' = some l) :
    l.epoch = none := by
  cases hl' : l.epoch with
  | none => rfl
  | some serial =>
    obtain ⟨e', he', rfl⟩ := h.joined k' l serial (find?_retire hl).2 hl'
    rw [he] at he'
    cases he'
    have hmembers := members_retire hfound e.serial
    rw [hinside, if_pos rfl, ← (h.epoch e he).members, hlast] at hmembers
    have hle := le_sumBy
      (fun _ (l : LeaseEntry) => if l.epoch = some e.serial then 1 else 0) hl
    rw [hl', if_pos rfl] at hle
    have hle : 1 ≤ (c.retire k entry).members e.serial := hle
    omega

theorem Inv.of_last {c' : Core} (h : Inv c) (hfound : c.leases.find? k = some entry)
    (hinside : entry.epoch = some e.serial) (he : c.epoch = some e) (hlast : e.openLeases = 1)
    (hsound : Sound c') (hclosed : c'.transaction = none) (hepoch : c'.epoch = none)
    (hleases : c'.leases = (c.retire k entry).leases) (hagrees : c'.view.Agrees) : Inv c' := by
  refine .of_closed hsound hclosed hagrees (base_of_idle hepoch hclosed ▸ hagrees) ?_ ?_
  · intro k' l serial hl hserial
    rw [h.outside_of_last hfound hinside he hlast (hleases ▸ hl)] at hserial
    cases hserial
  · intro e' he'
    rw [hepoch] at he'
    cases he'

theorem Inv.commit_step (h : Inv c) (hfound : c.leases.find? k = some entry)
    (hinside : entry.epoch = some e.serial) (he : c.epoch = some e) (hlast : e.openLeases = 1) :
    Inv { c.retire k entry with epoch := none } := by
  have hclosed := h.closed_of_lease hfound
  have hview : ({ c.retire k entry with epoch := none } : Core).view = c.view :=
    c.view_retire k entry
  exact h.of_last hfound hinside he hlast ((h.toSound.retire hfound).withEpoch none) hclosed
    rfl rfl (hview ▸ h.agrees (sane_of_closed hclosed))

theorem Core.view_undo (c : Core) (k : Nat) (entry : LeaseEntry) (owners : ResidencyTransaction) :
    ({ (c.retire k entry).move (undoAll c.live owners.handles) owners.prior with
      epoch := none } : Core).view = c.view.undoEpoch owners := by
  apply View.ext
  · rfl
  · rfl
  · unfold View.undoEpoch view move retire update
    dsimp only
    rw [mapWithKey_mapWithKey, mapWithKey_mapWithKey, mapWithKey_mapWithKey]
    rfl
  · rfl

theorem Inv.undo_step (h : Inv c) (hfound : c.leases.find? k = some entry)
    (hinside : entry.epoch = some e.serial) (he : c.epoch = some e) (hlast : e.openLeases = 1) :
    Inv { (c.retire k entry).move (undoAll c.live e.owners.handles) e.owners.prior with
      epoch := none } := by
  have hclosed := h.closed_of_lease hfound
  have hview := (c.view_undo k entry e.owners).trans (base_of_epoch he).symm
  have hretired := h.toSound.retire hfound
  refine h.of_last hfound hinside he hlast ((hretired.move fun k' l hl id hid => ?_).withEpoch none)
    hclosed rfl rfl (hview ▸ h.baseAgrees (sane_of_closed hclosed))
  -- a lease outside of the epoch holds none of the modules it moved
  have hnone := h.outside_of_last hfound hinside he hlast hl
  have hnot := (h.epoch e he).outside k' l (find?_retire hl).2 hnone id hid
  exact flagAfter_of_not_mem hnot true

/-! ## Registration -/

def View.add (v : View) (desc : ModuleDesc) (owner : Owner) : View :=
  { v with
    modules := v.modules.insert desc.id ⟨desc, true, desc.initiallyResident⟩
    live := Function.update v.live desc.id (if desc.initiallyResident then some owner else none) }

theorem Core.view_add (c : Core) (desc : ModuleDesc) (owner : Owner) :
    (c.add desc owner).view = c.view.add desc owner := by
  apply View.ext
  · rfl
  · rfl
  · unfold view add View.add
    dsimp only
    rw [mapWithKey_insert]
    rfl
  · rfl

theorem View.Agrees.add {v : View} (h : v.Agrees) (desc : ModuleDesc) (owner : Owner) :
    (v.add desc owner).Agrees := by
  intro id f hf
  unfold View.add at hf ⊢
  dsimp only at hf ⊢
  rw [find?_insert] at hf
  split at hf
  next hid =>
    cases hf
    rw [hid, Function.update_self]
    cases desc.initiallyResident <;> rfl
  next hid =>
    rw [Function.update_of_ne hid]
    exact h id f hf

theorem undoEpoch_add {v : View} {owners : ResidencyTransaction} (hnew : desc.id ∉ owners.ids) :
    (v.add desc owner).undoEpoch owners = (v.undoEpoch owners).add desc owner := by
  apply View.ext
  · rfl
  · rfl
  · have hprior : owners.prior desc.id desc.initiallyResident = desc.initiallyResident :=
      flagAfter_of_not_mem hnew _
    unfold View.undoEpoch View.add
    dsimp only
    rw [mapWithKey_insert]
    dsimp only
    rw [hprior]
  · refine undoAll_update (fun entry hentry heq => ?_) _
    obtain ⟨t, ht, rfl⟩ := List.mem_map.mp hentry
    exact hnew (heq ▸ List.mem_map_of_mem (List.mem_of_mem_filter ht))

theorem Inv.base_add (h : Inv c)
    (hclosed : c.transaction = none) (hnew : c.modules.find? desc.id = none) :
    (c.add desc owner).base = c.base.add desc owner := by
  have hview := c.view_add desc owner
  cases hepoch : c.epoch with
  | none =>
    rw [base_of_idle (c := c.add desc owner) hepoch hclosed,
      base_of_idle hepoch hclosed, hview]
  | some e =>
    have hfresh : desc.id ∉ e.owners.ids := by
      intro hid
      obtain ⟨m, hm⟩ := (h.epoch e hepoch).known desc.id hid
      rw [hnew] at hm
      cases hm
    rw [base_of_epoch (c := c.add desc owner) hepoch, base_of_epoch hepoch, hview,
      undoEpoch_add hfresh]

theorem Inv.register_step (h : Inv c)
    (hclosed : c.transaction = none) (hnew : c.modules.find? desc.id = none)
    (hbudgeted : c.budgets.contains desc.device = true) : Inv (c.add desc owner) := by
  have hsane : c.Sane := sane_of_closed hclosed
  have hview := c.view_add desc owner
  have hmodule : ∀ id m, (c.add desc owner).modules.find? id = some m →
      (id = desc.id ∧ m = ⟨desc, true, desc.initiallyResident, 0⟩) ∨
        (id ≠ desc.id ∧ c.modules.find? id = some m) := by
    intro id m hm
    have hm : (c.modules.insert desc.id ⟨desc, true, desc.initiallyResident, 0⟩).find? id =
      some m := hm
    rw [find?_insert] at hm
    split at hm
    next hid => exact .inl ⟨hid, (some.inj hm).symm⟩
    next hid => exact .inr ⟨hid, hm⟩
  -- no lease can have asked for the module yet
  have hunrequested : ∀ k l, c.leases.find? k = some l → desc.id ∉ l.requested := by
    intro k l hl hid
    obtain ⟨m, hm, -⟩ := h.held k l hl desc.id hid
    rw [hnew] at hm
    cases hm
  have hsound : Sound (c.add desc owner) := by
    refine ⟨fun id m hm => ?_, fun id m hm => ?_, h.nodup, fun k l hl id hid => ?_⟩
    · rcases hmodule id m hm with ⟨-, rfl⟩ | ⟨-, hm⟩
      · exact hbudgeted
      · exact h.budgeted id m hm
    · rcases hmodule id m hm with ⟨rfl, rfl⟩ | ⟨-, hm⟩
      · exact (sumBy_eq_zero fun k l hl => if_neg (hunrequested k l hl)).symm
      · exact h.pins id m hm
    · obtain ⟨m, hm, hflags⟩ := h.held k l hl id hid
      have hne : id ≠ desc.id := fun heq => hunrequested k l hl (heq ▸ hid)
      exact ⟨m, (find?_insert_of_ne _ _ hne).trans hm, hflags⟩
  refine .of_closed hsound hclosed (hview ▸ (h.agrees hsane).add desc owner)
    (h.base_add hclosed hnew ▸ (h.baseAgrees hsane).add desc owner) h.joined fun e he => ?_
  have hinv := h.epoch e he
  refine ⟨hinv.published, hinv.members, hinv.running, fun id hid => ?_,
    fun id hid hgone m hm => ?_, hinv.outside⟩
  · obtain ⟨m, hm⟩ := hinv.known id hid
    have hne : id ≠ desc.id := fun heq => by
      rw [heq, hnew] at hm
      cases hm
    exact ⟨m, (find?_insert_of_ne _ _ hne).trans hm⟩
  · obtain ⟨m', hm'⟩ := hinv.known id hid
    rcases hmodule id m hm with ⟨rfl, -⟩ | ⟨-, hm⟩
    · rw [hnew] at hm'
      cases hm'
    · exact hinv.gone id hid hgone m hm

/-! ## Policy transactions -/

theorem Inv.of_open (hsound : Sound c) (ht : c.transaction = some t)
    (hidle : c.leases.isEmpty = true) (hepoch : c.epoch = none)
    (hagrees : t.poisoned = false → c.view.Agrees) (hbase : t.poisoned = false → c.base.Agrees)
    (hdrafted : t.poisoned = false → t.state = .prepared → Drafted c t)
    (hswapped : t.poisoned = false → t.state = .published → ∀ tr ∈ t.modules, Swapped tr) :
    Inv c := by
  have honly : ∀ t', c.transaction = some t' → t' = t := fun t' ht' =>
    some.inj (ht'.symm.trans ht)
  exact
    { toSound := hsound
      agrees := fun hsane => hagrees (hsane t ht)
      baseAgrees := fun hsane => hbase (hsane t ht)
      joined := fun k l _ hl => by
        rw [isEmpty_iff.mp hidle k] at hl
        cases hl
      epoch := fun e he => by
        rw [hepoch] at he
        cases he
      exclusive := fun _ _ => ⟨hidle, hepoch⟩
      drafted := fun t' ht' => honly t' ht' ▸ hdrafted
      swapped := fun t' ht' => honly t' ht' ▸ hswapped }

theorem Core.sane_of_open (ht : c.transaction = some t) (hsane : t.poisoned = false) : c.Sane := by
  intro t' ht'
  rw [ht] at ht'
  cases ht'
  exact hsane

theorem Inv.prepare_step (h : Inv c)
    (hclosed : c.transaction = none) (hidle : c.leases.isEmpty = true) (hepoch : c.epoch = none)
    (hdrafted : Drafted c t) : Inv { c with transaction := some t } := by
  have hsane : c.Sane := sane_of_closed hclosed
  have hunpublished : t.state ≠ .published := by
    rw [hdrafted.state]
    exact fun hne => nomatch hne
  have hbase : ({ c with transaction := some t } : Core).base = c.view :=
    (base_setTransaction c t hepoch).trans (if_neg hunpublished)
  refine .of_open { h with } rfl hidle hepoch
    (fun _ => h.agrees hsane) (fun _ => hbase ▸ h.agrees hsane) (fun _ _ => ?_)
    fun _ hstate => absurd hstate hunpublished
  exact ⟨hdrafted.state, hdrafted.sane, hdrafted.budgets, hdrafted.policy, hdrafted.nodup,
    hdrafted.covers, hdrafted.prior, hdrafted.fresh, hdrafted.fits⟩

theorem contains_mapWithKey {f : Int → DeviceBudget → DeviceBudget} {device : Int} :
    (budgets.mapWithKey f).contains device = budgets.contains device := by
  unfold contains
  rw [find?_mapWithKey, isSome_map]

theorem Sound.setFlags (h : Sound c) (hidle : c.leases.isEmpty = true) {policy t} :
    Sound { (c.setFlags live ts enabled resident).setBudgets budgets policy with
      transaction := t } := by
  refine h.update (fun _ => contains_mapWithKey) (fun _ => find?_update) (fun _ _ => rfl)
    h.pins fun k l hl => ?_
  have hl : c.leases.find? k = some l := hl
  rw [isEmpty_iff.mp hidle k] at hl
  cases hl

theorem Core.setFlags_congr {ts'}
    (henabled : List.Forall₂ (fun t t' => t'.id = t.id ∧ enabled t' = enabled t) ts ts')
    (hresident : List.Forall₂ (fun t t' => t'.id = t.id ∧ resident t' = resident t) ts ts') :
    c.setFlags live ts' enabled resident = c.setFlags live ts enabled resident := by
  apply update_congr
  intro id m _
  rw [flagAfter_eq_of_forall₂ henabled, flagAfter_eq_of_forall₂ hresident]

theorem undo_published (hdrafted : Drafted c t) (h : PublishedFrom c t ts live) :
    (c.targets t ts live).view.undoPolicy { t with modules := ts, state := .published } =
      c.view := by
  apply View.ext
  · unfold View.undoPolicy view targets setBudgets setFlags update
    dsimp only
    rw [mapWithKey_mapWithKey]
    apply mapWithKey_id
    intro device budget hbudget
    rw [hdrafted.budgets, hbudget]
    rfl
  · exact hdrafted.policy
  · unfold View.undoPolicy view targets setBudgets setFlags update
    dsimp only
    rw [mapWithKey_mapWithKey, mapWithKey_mapWithKey]
    apply mapWithKey_congr
    intro id m hm
    obtain ⟨tr, htr, rfl⟩ := List.mem_map.mp ((hdrafted.covers id).mp ⟨m, hm⟩)
    obtain ⟨henabled, hresident⟩ := hdrafted.prior tr htr m hm
    simp only [Held.facet]
    rw [flagAfter_eq_of_forall₂ (h.same.imp fun t t' ht => ⟨ht.1, ht.2.1⟩),
      flagAfter_eq_of_forall₂ (h.same.imp fun t t' ht => ⟨ht.1, ht.2.2.1⟩),
      flagAfter_of_mem hdrafted.nodup htr, flagAfter_of_mem hdrafted.nodup htr, henabled,
      hresident]
  · exact h.undo

theorem base_published (hepoch : c.epoch = none) (hdrafted : Drafted c t)
    (h : PublishedFrom c t ts live) :
    ({ c.targets t ts live with
      transaction := some { t with modules := ts, state := .published } } : Core).base = c.view :=
  (base_setTransaction (c.targets t ts live) _ hepoch).trans (undo_published hdrafted h)

theorem PublishedFrom.targets_eq (h : PublishedFrom c t ts live) (live' : String → Option Owner) :
    c.targets t ts live' = c.targets t t.modules live' := by
  rw [targets, setFlags_congr (h.same.imp fun _ _ ht => ⟨ht.1, ht.2.2.2.1⟩)
    (h.same.imp fun _ _ ht => ⟨ht.1, ht.2.2.2.2⟩)]

theorem Inv.publish_step (h : Inv c) (ht : c.transaction = some t) (hsane : t.poisoned = false)
    (hstate : t.state = .prepared)
    (hpublished : (t.modules.map PolicyTransition.id).Nodup → PublishedFrom c t ts live) :
    Inv { c.targets t ts live with
      transaction := some { t with modules := ts, state := .published } } := by
  have hdrafted := h.drafted t ht hsane hstate
  have hpub := hpublished hdrafted.nodup
  obtain ⟨hidle, hepoch⟩ := h.exclusive t ht
  have hcsane : c.Sane := sane_of_open ht hsane
  have hbase := base_published hepoch hdrafted hpub
  refine .of_open (h.toSound.setFlags hidle) rfl hidle hepoch ?_
    (fun _ => hbase ▸ h.agrees hcsane) (fun _ hstate' => (nomatch hstate'))
    fun _ _ => hpub.swapped
  · intro _ id f hf
    rw [hpub.targets_eq] at hf
    unfold view targets setBudgets setFlags update at hf
    simp only [find?_mapWithKey, map_map, map_eq_some_iff] at hf
    obtain ⟨m, hm, rfl⟩ := hf
    obtain ⟨tr, htr, rfl⟩ := List.mem_map.mp ((hdrafted.covers id).mp ⟨m, hm⟩)
    change flagAfter _ _ _ _ _ = (live tr.id).isSome
    rw [flagAfter_of_mem hdrafted.nodup htr]
    obtain ⟨-, hnone, hsome⟩ := hdrafted.fresh tr htr
    cases hhandle : tr.handle with
    | none =>
      -- a module without a handle keeps its owner, and its flag does not change
      have hold : m.resident = (c.live tr.id).isSome := h.agrees hcsane tr.id m.facet (by
        rw [view, find?_mapWithKey, hm]
        rfl)
      rw [hpub.kept tr htr hhandle, ← hold, ← (hdrafted.prior tr htr m hm).2, hnone hhandle]
    | some handle =>
      rw [hpub.moved tr htr handle hhandle, (hsome handle hhandle).2]

theorem Core.view_rollback (c : Core) (t : PolicyTransaction) (x : Option PolicyTransaction) :
    ({ c.priors t with
      transaction := x } : Core).view = c.view.undoPolicy t := by
  apply View.ext
  · rfl
  · rfl
  · unfold View.undoPolicy view priors setBudgets setFlags update
    dsimp only
    rw [mapWithKey_mapWithKey, mapWithKey_mapWithKey]
    rfl
  · rfl

theorem base_rollback (hepoch : c.epoch = none) (ts : List PolicyTransition) :
    ({ c.priors t with
      transaction := some { t with modules := ts, state := .rolledBack } } : Core).base =
      c.view.undoPolicy t :=
  (base_setTransaction (c.priors t) { t with modules := ts, state := .rolledBack } hepoch).trans
    (c.view_rollback t (some { t with modules := ts, state := .rolledBack }))

theorem Inv.rollback_step (h : Inv c) (ht : c.transaction = some t) (hsane : t.poisoned = false)
    (hstate : t.state = .published) :
    Inv { c.priors t with
      transaction := some { t with modules := ts, state := .rolledBack } } := by
  obtain ⟨hidle, hepoch⟩ := h.exclusive t ht
  have hcsane : c.Sane := sane_of_open ht hsane
  have hview := c.view_rollback t (some { t with modules := ts, state := .rolledBack })
  have hbase := base_rollback (t := t) hepoch ts
  rw [← base_of_published hepoch ht hstate] at hview hbase
  exact .of_open (h.toSound.setFlags hidle) rfl hidle hepoch
    (fun _ => hview ▸ h.baseAgrees hcsane) (fun _ => hbase ▸ h.baseAgrees hcsane)
    (fun _ hstate' => (nomatch hstate')) fun _ hstate' => (nomatch hstate')

theorem Inv.finalize_step (h : Inv c) (ht : c.transaction = some t) (hsane : t.poisoned = false) :
    Inv { c with transaction := some { t with state := .finalized } } := by
  obtain ⟨hidle, hepoch⟩ := h.exclusive t ht
  have hcsane : c.Sane := sane_of_open ht hsane
  have hbase : ({ c with transaction := some { t with state := .finalized } } : Core).base =
      c.view :=
    base_setTransaction c { t with state := .finalized } hepoch
  exact .of_open { h with } rfl hidle hepoch
    (fun _ => h.agrees hcsane) (fun _ => hbase ▸ h.agrees hcsane)
    (fun _ hstate => (nomatch hstate)) fun _ hstate => (nomatch hstate)

theorem Inv.poison_step (h : Inv c) (ht : c.transaction = some t) :
    Inv { c with
      live := live
      transaction := some { t with modules := ts, poisoned := true } } := by
  obtain ⟨hidle, hepoch⟩ := h.exclusive t ht
  exact .of_open { h with } rfl hidle hepoch
    (fun hsane => (nomatch hsane)) (fun hsane => (nomatch hsane)) (fun hsane => (nomatch hsane))
    fun hsane => (nomatch hsane)

theorem Inv.free_step (h : Inv c) (ht : c.transaction = some t)
    (hsane : t.poisoned = false) : Inv { c with transaction := none } := by
  obtain ⟨-, hepoch⟩ := h.exclusive t ht
  have hcsane : c.Sane := sane_of_open ht hsane
  have hbase : ({ c with transaction := none } : Core).base = c.view :=
    base_of_idle (c := { c with transaction := none }) hepoch rfl
  refine .of_closed { h with } rfl (h.agrees hcsane)
    (hbase ▸ h.agrees hcsane) h.joined fun e he => ?_
  have he : c.epoch = some e := he
  rw [hepoch] at he
  cases he

/-- **Every step keeps the invariant.** -/
theorem Inv.step {c' op} (h : Inv c) (hstep : CoreStep c op c') : Inv c' := by
  cases hstep with
  | quiet => exact h
  | register desc owner closed fresh budgeted => exact h.register_step closed fresh budgeted
  | lease _ _ k ids admitted free outside => exact h.lease_step admitted free outside
  | join _ _ k ids e admitted free running => exact h.join_step admitted free running
  | opens _ _ k ids evicted activated e live admitted free opened =>
    exact h.open_step admitted free opened
  | returned k _ entry found outside => exact h.return_step found outside
  | left k _ entry e found inside running several => exact h.leave_step found inside running several
  | commits k _ entry e found inside running last => exact h.commit_step found inside running last
  | undoes k _ entry e found inside running last => exact h.undo_step found inside running last
  | prepares _ t closed idle none_open drafted => exact h.prepare_step closed idle none_open drafted
  | publishes _ t ts live running sane state published =>
    exact h.publish_step running sane state published
  | rollsBack _ t ts _ running sane state => exact h.rollback_step running sane state
  | finalizes _ t running sane => exact h.finalize_step running sane
  | poisons _ t ts live _ running => exact h.poison_step running
  | frees _ t running sane => exact h.free_step running sane

end ExpertStreaming.Transient
