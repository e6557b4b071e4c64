import ExpertStreaming.Transient.Consistency

/-! # What an epoch of leases leaves behind

The first lease that moves modules opens an epoch, later leases on what it loaded join it,
and the release of the last one resolves it: the owners are put back unless one of the
leases committed. While an epoch is open neither the residency nor the view it would be
undone to changes, apart from new modules. What a lease asked for keeps its owner in
every step of the manager.
-/
namespace ExpertStreaming.Transient

open Lib Planner OrdMap List

def Manager.residency (s : Manager) (id : String) : Option (Bool × Option Owner) :=
  (s.modules.find? id).map fun m => (m.resident, s.live id)

def View.residency (v : View) (id : String) : Option (Bool × Option Owner) :=
  (v.modules.find? id).map fun m => (m.resident, v.live id)

theorem residency_view (s : Manager) (id : String) : s.core.view.residency id = s.residency id := by
  unfold View.residency Manager.residency Core.view Manager.core
  simp only [find?_mapWithKey, Option.map_map]
  rfl

/-- A lease of the epoch commits: it was not taken to restore what was there before, and
its body succeeds. -/
def Commits (serial : Nat) (ev : Event Manager (Call × Reply)) : Prop :=
  ∃ k lease, ev.label.1.op = .release k true ∧ ev.label.2 = .accepted ∧
    ev.before.leases.find? k = some lease ∧ lease.epoch = some serial ∧ lease.restorePrior = false

def Registers (id : String) (ev : Event Manager (Call × Reply)) : Prop :=
  ev.before.modules.find? id = none ∧ ∃ desc, ev.label.1.op = .registerModule desc ∧ desc.id = id

/-! ## Steps of the abstract machine -/

def Core.Committing (c : Core) (op : Op) (c' : Core) (serial : Nat) : Prop :=
  ∃ k entry, op = .release k true ∧ c.leases.find? k = some entry ∧ c'.leases.find? k = none ∧
    entry.epoch = some serial ∧ entry.restorePrior = false

variable {c c' : Core} {serial : Nat} {op : Op} {e : ResidencyEpoch} {id : String}
  {s s' : Manager} {label : Call × Reply}

theorem committing_iff {k success entry} (hfound : c.leases.find? k = some entry)
    (hinside : entry.epoch = some serial) (hgone : c'.leases.find? k = none) :
    c.Committing (.release k success) c' serial ↔
      (success && !entry.restorePrior) = true := by
  constructor
  · rintro ⟨k', entry', hop, hfound', -, -, hprior⟩
    cases hop
    rw [hfound] at hfound'
    cases hfound'
    rw [hprior]
    rfl
  · intro hboth
    obtain ⟨rfl, hprior⟩ := Bool.and_eq_true_iff.mp hboth
    exact ⟨k, entry, rfl, hfound, hgone, hinside, Bool.not_eq_true' _ ▸ hprior⟩

theorem CoreStep.opening (h : CoreStep c op c') (hnone : c.epoch = none) (he : c'.epoch = some e) :
    c'.base = c.view ∧ e.committed = false ∧ ∀ arg, op ≠ .freePolicy arg := by
  have hsame : c'.epoch ≠ c.epoch := by
    rw [he, hnone]
    exact fun hne => nomatch hne
  cases h with
  | opens _ restorePrior k ids evicted activated e' live _ _ opened =>
    cases he
    exact ⟨opened.base_eq k _, opened.uncommitted, by nofun⟩
  | join _ _ _ _ _ _ _ running => rw [hnone] at running; cases running
  | left _ _ _ _ _ _ running => rw [hnone] at running; cases running
  | commits => cases he
  | undoes => cases he
  | quiet | register | lease | returned | prepares | publishes | rollsBack | finalizes | poisons
  | frees => exact absurd rfl hsame

def SameViews (c : Core) (op : Op) (c' : Core) : Prop :=
  (c'.view = c.view ∧ c'.base = c.base) ∨
    ∃ desc owner, op = .registerModule desc ∧ c.modules.find? desc.id = none ∧
      c'.view = c.view.add desc owner ∧ c'.base = c.base.add desc owner

/-- **While an epoch is open** only new modules come, and only a committing release
changes its decision. -/
theorem Inv.within_epoch (h : Inv c) (hstep : CoreStep c op c') {e'} (he : c.epoch = some e)
    (he' : c'.epoch = some e') :
    e'.serial = e.serial ∧ SameViews c op c' ∧
      (e'.committed = true ↔ e.committed = true ∨ c.Committing op c' e.serial) := by
  have hclosed : ∀ t, c.transaction ≠ some t := by
    intro t ht
    rw [(h.exclusive t ht).2] at he
    cases he
  have hkept : ∀ op, (∀ k, op ≠ Op.release k true) → ∀ c' : Core,
      ¬ c.Committing op c' e.serial := by
    rintro op hop c' ⟨k, -, hrelease, -⟩
    exact hop k hrelease
  cases hstep with
  | quiet =>
    rw [he] at he'
    cases he'
    refine ⟨rfl, .inl ⟨rfl, rfl⟩, (or_iff_left ?_).symm⟩
    rintro ⟨k, entry, -, hfound, hgone, -⟩
    rw [hfound] at hgone
    cases hgone
  | register desc owner closed fresh =>
    have he' : c.epoch = some e' := he'
    rw [he] at he'
    cases he'
    exact ⟨rfl, .inr ⟨desc, owner, rfl, fresh, c.view_add desc owner, h.base_add closed fresh⟩,
      (or_iff_left (hkept _ (by nofun) _)).symm⟩
  | lease _ _ k ids =>
    have he' : c.epoch = some e' := he'
    rw [he] at he'
    cases he'
    exact ⟨rfl, .inl ⟨c.view_lease k _, c.base_lease k _⟩,
      (or_iff_left (hkept _ (by nofun) _)).symm⟩
  | join _ _ k _ e₁ _ _ running =>
    rw [he] at running
    cases running
    cases he'
    have hview := c.view_lease k
    exact ⟨rfl, .inl ⟨hview _, Core.base_setEpoch he rfl (hview _)⟩,
      (or_iff_left (hkept _ (by nofun) _)).symm⟩
  | opens _ _ _ _ _ _ _ _ _ _ opened =>
    rw [opened.none_open] at he
    cases he
  | returned k _ entry found outside =>
    have he' : c.epoch = some e' := he'
    rw [he] at he'
    cases he'
    refine ⟨rfl, .inl ⟨c.view_retire k entry, c.base_retire k entry⟩, (or_iff_left ?_).symm⟩
    rintro ⟨k', entry', hop, hfound, -, hinside, -⟩
    cases hop
    rw [found] at hfound
    cases hfound
    rw [outside] at hinside
    cases hinside
  | left k success entry e₁ found inside running =>
    rw [he] at running
    cases running
    cases he'
    have hview := c.view_retire k entry
    refine ⟨rfl, .inl ⟨hview, Core.base_setEpoch he rfl hview⟩, ?_⟩
    rw [committing_iff found inside (find?_erase_self _ _)]
    exact Bool.or_eq_true_iff
  | commits => cases he'
  | undoes => cases he'
  | prepares _ _ _ _ none_open => rw [none_open] at he; cases he
  | publishes _ t _ _ running => exact absurd running (hclosed t)
  | rollsBack _ t _ _ running => exact absurd running (hclosed t)
  | finalizes _ t running => exact absurd running (hclosed t)
  | poisons _ t _ _ _ running => exact absurd running (hclosed t)
  | frees _ t running => exact absurd running (hclosed t)

/-- **The end of an epoch** keeps what is there if a lease committed, and otherwise
leaves what undoing it leaves. -/
theorem CoreStep.end_epoch (hstep : CoreStep c op c')
    (he : c.epoch = some e) (hnone : c'.epoch = none) :
    (e.committed = true ∨ c.Committing op c' e.serial → c'.view = c.view) ∧
      (¬ (e.committed = true ∨ c.Committing op c' e.serial) → c'.view = c.base) := by
  have hsame : c'.epoch ≠ c.epoch := by
    rw [he, hnone]
    exact fun hne => nomatch hne
  cases hstep with
  | commits k success entry e₁ found inside running _ decided =>
    rw [he] at running
    cases running
    refine ⟨fun _ => c.view_retire k entry, fun hnot => absurd ?_ hnot⟩
    rw [committing_iff found inside (find?_erase_self _ _)]
    exact Bool.or_eq_true_iff.mp decided
  | undoes k success entry e₁ found inside running _ decided =>
    rw [he] at running
    cases running
    refine ⟨fun hcommitted => ?_, fun _ => ?_⟩
    · rw [committing_iff found inside (find?_erase_self _ _),
        ← Bool.or_eq_true_iff, decided] at hcommitted
      cases hcommitted
    · rw [Core.base_of_epoch he]
      exact c.view_undo k entry e.owners
  | opens => cases hnone
  | join => cases hnone
  | left => cases hnone
  | quiet | register | lease | returned | prepares | publishes | rollsBack | finalizes | poisons
  | frees => exact absurd rfl hsame

/-- **What an open lease asked for keeps its owner in every step.** -/
theorem Inv.holds (h : Inv c) (hstep : CoreStep c op c') {k l} (hl : c.leases.find? k = some l)
    (hl' : c'.leases.find? k = some l) (hid : id ∈ l.requested) : c'.live id = c.live id := by
  have hclosed := h.closed_of_lease hl
  have hnone : ∀ t, c.transaction ≠ some t := fun t ht => by
    rw [hclosed] at ht
    cases ht
  cases hstep with
  | register desc owner _ fresh =>
    obtain ⟨m, hm, -⟩ := h.held k l hl id hid
    have hne : id ≠ desc.id := fun heq => by
      rw [heq, fresh] at hm
      cases hm
    exact Function.update_of_ne hne _ _
  | opens _ _ _ _ evicted activated e live admitted _ opened =>
    obtain ⟨hout, hin⟩ := h.unmoved admitted hl hid
    exact opened.other id hout hin
  | undoes k' _ entry e found inside running last =>
    have hl' : (c.retire k' entry).leases.find? k = some l := hl'
    have houtside := h.outside_of_last found inside running last hl'
    have hnot := (h.epoch e running).outside k l hl houtside id hid
    refine undoAll_apply_of_ne fun handle hhandle heq => hnot ?_
    obtain ⟨t, ht, rfl⟩ := mem_map.mp hhandle
    exact mem_map.mpr ⟨t, (mem_filter.mp ht).1, heq⟩
  | publishes _ t _ _ running => exact absurd running (hnone t)
  | rollsBack _ t _ _ running => exact absurd running (hnone t)
  | poisons _ t _ _ _ running => exact absurd running (hnone t)
  | quiet | lease | join | returned | left | commits | prepares | finalizes | frees => rfl

/-! ## Calls of the manager -/

theorem step_refines_within (h : Inv s.core)
    (hstep : Step s label s') (hclosed : s.transaction = none) :
    CoreStep s.core label.1.op s'.core := by
  rcases step_refines h.ordered hstep with hone | ⟨arg, c, hop, hfirst, hsecond⟩
  · exact hone
  · obtain rfl := hfirst.free_of_closed hclosed
    rw [hop]
    exact hsecond

theorem Inv.closed_of_epoch (h : Inv s.core) (hepoch : s.epoch ≠ none) :
    s.transaction = none := by
  cases ht : s.transaction with
  | none => rfl
  | some t => exact absurd (h.exclusive t ht).2 hepoch

theorem committing_core (hstep : Step s label s') (serial : Nat) :
    s.core.Committing label.1.op s'.core serial ↔ Commits serial ⟨s, label, s'⟩ := by
  obtain ⟨⟨op, answers⟩, reply⟩ := label
  constructor
  · rintro ⟨k, entry, hop, hfound, hgone, hinside, hprior⟩
    obtain rfl : op = .release k true := hop
    rcases release_cases hstep with ⟨-, hsame⟩ | ⟨haccepted, -⟩
    · rw [hsame, hfound] at hgone
      cases hgone
    · exact ⟨k, entry, rfl, haccepted, hfound, hinside, hprior⟩
  · rintro ⟨k, entry, hop, haccepted, hfound, hinside, hprior⟩
    obtain rfl : op = .release k true := hop
    rcases release_cases hstep with ⟨hrefused, -⟩ | ⟨-, hgone, -⟩
    · exact absurd haccepted hrefused
    · exact ⟨k, entry, rfl, hfound, hgone, hinside, hprior⟩

theorem View.residency_add {v : View} {desc : ModuleDesc} (hne : id ≠ desc.id)
    (owner : Owner) : (v.add desc owner).residency id = v.residency id := by
  unfold View.residency View.add
  dsimp only
  rw [find?_insert_of_ne _ _ hne, Function.update_of_ne hne]

/-! ## Runs -/

theorem Inv.running (h : Inv s.core) (hopen : 0 < s.members serial) :
    ∃ e, s.epoch = some e ∧ e.serial = serial := by
  by_contra hnot
  have hzero : s.members serial = 0 := by
    apply sumBy_eq_zero
    intro k l hl
    exact if_neg fun hinside => hnot (h.joined k l serial hl hinside)
  omega

/-- What is known of an open epoch from what has happened since it was opened. -/
structure Since (before opened : View) (serial : Nat) (past : List (Event Manager (Call × Reply)))
    (s : Manager) : Prop where
  inv : Inv s.core
  epoch : ∃ e, s.epoch = some e ∧ e.serial = serial ∧
    (e.committed = true ↔ ∃ ev ∈ past, Commits serial ev)
  view : ∀ id, (∀ ev ∈ past, ¬ Registers id ev) →
    s.core.view.residency id = opened.residency id ∧ s.core.base.residency id = before.residency id

theorem since_step {before opened : View} {past : List (Event Manager (Call × Reply))}
    (h : Since before opened serial past s) (hstep : Step s label s')
    (hopen : 0 < s'.members serial) :
    Since before opened serial (past ++ [⟨s, label, s'⟩]) s' := by
  obtain ⟨hinv, ⟨e, he, hserial, hdecided⟩, hview⟩ := h
  have hinv' := inv_step hinv hstep
  obtain ⟨e', he', hserial'⟩ := hinv'.running hopen
  have hclosed := hinv.closed_of_epoch (by simp [he])
  obtain ⟨-, hviews, hcommitted⟩ :=
    hinv.within_epoch (step_refines_within hinv hstep hclosed) he he'
  rw [hserial, committing_core hstep serial, hdecided] at hcommitted
  refine ⟨hinv', ⟨e', he', hserial', hcommitted.trans ?_⟩, fun id hnew => ?_⟩
  · simp only [mem_append, mem_singleton, or_and_right, exists_or, exists_eq_left]
  · have hbefore := hview id fun ev hev => hnew ev (mem_append_left _ hev)
    rcases hviews with ⟨hv, hb⟩ | ⟨desc, owner, hop, hfresh, hv, hb⟩
    · rw [hv, hb]
      exact hbefore
    · have hne : id ≠ desc.id := by
        rintro rfl
        refine hnew _ (mem_append_right _ (mem_singleton_self _)) ⟨?_, desc, hop, rfl⟩
        have hfresh : (s.modules.mapWithKey fun _ m => m.held).find? desc.id = none := hfresh
        rw [find?_mapWithKey] at hfresh
        exact Option.map_eq_none_iff.mp hfresh
      rw [hv, hb, View.residency_add hne, View.residency_add hne]
      exact hbefore

theorem since_opened {s₀ s₁} (h : Inv s₀.core) (hidle : s₀.epoch = none) (hstep : Step s₀ label s₁)
    (he : s₁.epoch = some e) : Since s₀.core.view s₁.core.view e.serial [] s₁ := by
  have hopens : s₁.core.base = s₀.core.view ∧ e.committed = false := by
    rcases step_refines h.ordered hstep with hone | ⟨arg, c, -, hfirst, hsecond⟩
    · obtain ⟨hbase, hcommitted, -⟩ := hone.opening hidle he
      exact ⟨hbase, hcommitted⟩
    · -- freeing a policy transaction opens nothing
      cases hc : c.epoch with
      | none => exact absurd rfl ((hsecond.opening hc he).2.2 arg)
      | some e' => exact absurd rfl ((hfirst.opening hidle hc).2.2 arg)
  refine ⟨inv_step h hstep, ⟨e, he, rfl, ?_⟩, fun id _ => ⟨rfl, by rw [hopens.1]⟩⟩
  simp [hopens.2]

theorem Inv.resolves (h : Inv s.core) (hstep : Step s label s') (he : s.epoch = some e)
    (hlast : s'.members e.serial = 0) : s'.epoch = none := by
  have hclosed := h.closed_of_epoch (by simp [he])
  cases he' : s'.epoch with
  | none => rfl
  | some e' =>
    have hserial := (h.within_epoch (step_refines_within h hstep hclosed) he he').1
    have hinv' := (inv_step h hstep).epoch e' he'
    have hmembers : e'.openLeases = s'.members e'.serial := hinv'.members
    have hrunning := hinv'.running
    rw [hserial, hlast] at hmembers
    omega

theorem holds_step (h : Inv s.core) (hstep : Step s label s') {k lease}
    (hl : s.leases.find? k = some lease) (hl' : s'.leases.find? k = some lease)
    (hid : id ∈ lease.requested) :
    ∃ owner, s.residency id = some (true, owner) ∧ s'.residency id = some (true, owner) := by
  have howner := h.holds (step_refines_within h hstep (h.closed_of_lease hl)) hl hl' hid
  have hresident : ∀ {s : Manager}, Inv s.core → s.leases.find? k = some lease →
      s.residency id = some (true, s.live id) := by
    intro s h hl
    obtain ⟨m, hm, -, hm'⟩ := h.held k lease hl id hid
    have hm : (s.modules.mapWithKey fun _ m => m.held).find? id = some m := hm
    rw [find?_mapWithKey] at hm
    obtain ⟨m₀, hm₀, rfl⟩ := Option.map_eq_some_iff.mp hm
    have hm' : m₀.resident = true := hm'
    rw [Manager.residency, hm₀, Option.map_some, hm']
  have howner : s'.live id = s.live id := howner
  refine ⟨s.live id, hresident h hl, ?_⟩
  rw [hresident (inv_step h hstep) hl', howner]

/-- **An epoch is undone or kept as a whole.** When its last lease is released and none committed,
every module is as it was before the epoch, otherwise as the epoch loaded it; and what an open
lease asked for stays resident with its owner. -/
theorem epoch_restores_or_keeps (budgets : OrdMap Int DeviceBudget) (s₀ s₁ s₂ s₃ : Manager)
    (past during : List (Event Manager (Call × Reply))) (first last : Call × Reply)
    (e : ResidencyEpoch) (hpast : Trace Step (Manager.start budgets) past s₀)
    (hidle : s₀.epoch = none) (hfirst : Step s₀ first s₁) (hopened : s₁.epoch = some e)
    (hduring : Trace Step s₁ during s₂) (hrunning : ∀ ev ∈ during, 0 < ev.after.members e.serial)
    (hlast : Step s₂ last s₃) (hresolved : s₃.members e.serial = 0) :
    ((¬ ∃ ev ∈ during ++ [⟨s₂, last, s₃⟩], Commits e.serial ev) →
      ∀ id, (∀ ev ∈ during, ¬ Registers id ev) → s₃.residency id = s₀.residency id) ∧
    ((∃ ev ∈ during ++ [⟨s₂, last, s₃⟩], Commits e.serial ev) →
      ∀ id, (∀ ev ∈ during, ¬ Registers id ev) → s₃.residency id = s₁.residency id) ∧
    ∀ ev ∈ past ++ ⟨s₀, first, s₁⟩ :: (during ++ [⟨s₂, last, s₃⟩]),
      ∀ k lease, ev.before.leases.find? k = some lease → ev.after.leases.find? k = some lease →
        ∀ id ∈ lease.requested, ∃ owner, ev.before.residency id = some (true, owner) ∧
          ev.after.residency id = some (true, owner) := by
  have hinv := inv_of_run hpast
  have hsince : Since s₀.core.view s₁.core.view e.serial ([] ++ during) s₂ :=
    hduring.history_of (fun _ _ _ _ hsince hstep hopen => since_step hsince hstep hopen) hrunning
      (since_opened hinv hidle hfirst hopened)
  obtain ⟨hinv₂, ⟨e₂, he₂, hserial, hdecided⟩, hviews⟩ := hsince
  have hclosed := hinv₂.closed_of_epoch (by simp [he₂])
  have hnone := hinv₂.resolves hlast he₂ (by rw [hserial]; exact hresolved)
  obtain ⟨hkept, hundone⟩ :=
    (step_refines_within hinv₂ hlast hclosed).end_epoch he₂ hnone
  -- the decision of the epoch is the committing calls, with the last one
  have hcommits : (e₂.committed = true ∨ s₂.core.Committing last.1.op s₃.core e₂.serial) ↔
      ∃ ev ∈ during ++ [⟨s₂, last, s₃⟩], Commits e.serial ev := by
    rw [hserial, committing_core hlast, hdecided]
    simp only [nil_append, mem_append, mem_singleton, or_and_right, exists_or,
      exists_eq_left]
  rw [hcommits] at hkept hundone
  refine ⟨fun hnot id hnew => ?_, fun hsome id hnew => ?_, ?_⟩
  · rw [← residency_view, ← residency_view, hundone hnot]
    exact (hviews id hnew).2
  · rw [← residency_view, ← residency_view, hkept hsome]
    exact (hviews id hnew).1
  · have hall := hpast.append (.cons hfirst (hduring.snoc hlast))
    have hsteps := (hall.invariant (I := fun s => Inv s.core) (fun _ _ _ hi hs => inv_step hi hs)
      (inv_start budgets)).2
    intro ev hev k lease hl hl' id hid
    obtain ⟨hi, -, hstep⟩ := hsteps ev hev
    exact holds_step hi hstep hl hl' hid

/-- One lease opens an epoch and a second joins it. Neither commits, and the module that made room
is back with its owner. -/
theorem joined_epoch_is_undone :
    ∃ past during s₀ s₁ s₂ s₃ first last, Trace Step (Manager.start tenBytes) past s₀ ∧
      Step s₀ first s₁ ∧ Trace Step s₁ during s₂ ∧ Step s₂ last s₃ ∧
      s₀.residency "mtp" = some (true, some 0) ∧ s₁.residency "mtp" = some (false, none) ∧
      s₃.residency "mtp" = s₀.residency "mtp" := by
  have hruns : (execute next (Manager.start tenBytes) (swapCalls.take 2)).any (fun r₀ =>
      (next r₀.2 ⟨.acquire ["vision"] true, {}⟩).any fun r₁ =>
        (execute next r₁.1 [⟨.acquire ["vision"] true, {}⟩, ⟨.release 1 true, {}⟩]).any fun r₂ =>
          (next r₂.2 ⟨.release 2 false, {}⟩).any fun r₃ =>
            r₀.2.epoch.isNone && r₁.1.epoch.any (fun e =>
              r₂.1.all (fun ev => decide (0 < ev.after.members e.serial)) &&
              decide (r₃.1.members e.serial = 0)) &&
            (r₂.1 ++ [⟨r₂.2, (⟨.release 2 false, {}⟩, r₃.2), r₃.1⟩]).all (fun ev =>
              ev.before.leases.toList.all fun entry => entry.2.restorePrior) &&
            r₂.1.all (fun ev => (ev.before.modules.find? "mtp").isSome) &&
            decide (r₀.2.residency "mtp" = some (true, some 0)) &&
            decide (r₁.1.residency "mtp" = some (false, none))) = true := by
    decide +kernel
  obtain ⟨⟨past, s₀⟩, hpast, hrest⟩ := (Option.any_eq_true _ _).mp hruns
  obtain ⟨⟨s₁, reply₁⟩, hfirst, hrest⟩ := (Option.any_eq_true _ _).mp hrest
  obtain ⟨⟨during, s₂⟩, hduring, hrest⟩ := (Option.any_eq_true _ _).mp hrest
  obtain ⟨⟨s₃, reply₃⟩, hlast, hok⟩ := (Option.any_eq_true _ _).mp hrest
  simp only [Bool.and_eq_true, all_eq_true, decide_eq_true_eq] at hok
  obtain ⟨⟨⟨⟨⟨hidle, hepoch⟩, hrestoring⟩, hknown⟩, h₀⟩, h₁⟩ := hok
  obtain ⟨e, he, hopen⟩ := (Option.any_eq_true _ _).mp hepoch
  simp only [Bool.and_eq_true, all_eq_true, decide_eq_true_eq] at hopen
  refine ⟨past, during, s₀, s₁, s₂, s₃, (⟨.acquire ["vision"] true, {}⟩, reply₁),
    (⟨.release 2 false, {}⟩, reply₃), execute_trace hpast, hfirst, execute_trace hduring, hlast,
    h₀, h₁, ?_⟩
  refine (epoch_restores_or_keeps tenBytes s₀ s₁ s₂ s₃ past during (_, reply₁) (_, reply₃) e
    (execute_trace hpast) (Option.isNone_iff_eq_none.mp hidle) hfirst he (execute_trace hduring)
    hopen.1 hlast hopen.2).1 ?_ "mtp" fun ev hev hnew => ?_
  · rintro ⟨ev, hev, k, lease, -, -, hl, -, hprior⟩
    have hall := hrestoring ev hev (k, lease) (find?_eq_some.mp hl)
    rw [hprior] at hall
    cases hall
  · have hsome := hknown ev hev
    rw [hnew.1] at hsome
    cases hsome

end ExpertStreaming.Transient
