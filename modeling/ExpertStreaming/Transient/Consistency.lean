import ExpertStreaming.Lib.Trace
import ExpertStreaming.Transient.Room

/-! # The manager stays consistent

The invariant of the abstract machine, read on the manager: budgets, pins, leases, the
epoch and the owners agree in every state that a run of calls reaches. One call can break
this. Registering a module as resident while an epoch is open looks at the modules that
are resident now, not at those that undoing the epoch brings back.
-/
namespace ExpertStreaming.Transient

open Lib Planner Manager List

namespace Manager

def start (budgets : OrdMap Int DeviceBudget) : Manager := { budgets := budgets }

def residentBytes (s : Manager) (device : Int) : Nat :=
  s.modules.sumBy fun _ m => if m.resident ∧ m.desc.device = device then m.desc.bytes else 0

def totalBytes (s : Manager) : Nat := s.modules.sumBy fun _ m => m.desc.bytes

def requests (s : Manager) (id : String) : Nat :=
  s.leases.sumBy fun _ l => if id ∈ l.requested then 1 else 0

def members (s : Manager) (serial : Nat) : Nat :=
  s.leases.sumBy fun _ l => if l.epoch = some serial then 1 else 0

end Manager

/-- **What the manager guarantees in every state.** -/
structure Consistent (s : Manager) : Prop where
  fits : ∀ device, s.residentBytes device ≤ s.usableBytes device
  pins : ∀ id m, s.modules.find? id = some m → m.pins = s.requests id
  pinned : ∀ id m, s.modules.find? id = some m → 0 < m.pins →
    m.resident = true ∧ m.enabled = true
  one_epoch : ∀ k l serial, s.leases.find? k = some l → l.epoch = some serial →
    ∃ e, s.epoch = some e ∧ e.serial = serial
  epoch : ∀ e, s.epoch = some e → e.openLeases = s.members e.serial ∧ 0 < e.openLeases
  exclusive : s.transaction ≠ none → s.leases.isEmpty = true ∧ s.epoch = none

def OwnersAgree (s : Manager) : Prop :=
  ∀ id m, s.modules.find? id = some m → m.resident = (s.live id).isSome

theorem residentBytes_core (s : Manager) (device : Int) :
    s.core.view.residentBytes device = s.residentBytes device := by
  unfold View.residentBytes Core.view core
  dsimp only
  rw [OrdMap.sumBy_mapWithKey, OrdMap.sumBy_mapWithKey]
  rfl

theorem totalBytes_core (s : Manager) : s.core.totalBytes = s.totalBytes := by
  unfold Core.totalBytes core
  rw [OrdMap.sumBy_mapWithKey]
  rfl

variable {s s' : Manager} {label : Call × Reply} {budgets : OrdMap Int DeviceBudget}
  {evs : List (Event Manager (Call × Reply))} {answers : Answers} {ts ts' : List PolicyTransition}

theorem Inv.consistent (h : Inv s.core) (hfits : s.core.view.Fits) :
    Consistent s := by
  refine ⟨fun device => ?_, fun id m hm => ?_, fun id m hm hpins => ?_, h.joined, fun e he => ?_,
    fun hopen => ?_⟩
  · rw [← residentBytes_core]
    exact hfits device
  · exact h.pins id m.held (core_find? hm)
  · -- a pin belongs to a lease, and what a lease holds is resident and enabled
    have hrequests : m.pins = s.core.requests id := h.pins id m.held (core_find? hm)
    by_contra hnot
    have hzero : s.core.requests id = 0 := by
      apply OrdMap.sumBy_eq_zero
      intro k l hl
      refine if_neg fun hid => ?_
      obtain ⟨m', hm', henabled, hresident⟩ := h.held k l hl id hid
      rw [core_find? hm] at hm'
      cases hm'
      exact hnot ⟨hresident, henabled⟩
    omega
  · exact ⟨(h.epoch e he).members, (h.epoch e he).running⟩
  · obtain ⟨t, ht⟩ := Option.ne_none_iff_exists'.mp hopen
    exact h.exclusive t ht

theorem Inv.ownersAgree (h : Inv s.core) (hsane : s.core.Sane) : OwnersAgree s := by
  intro id m hm
  refine h.agrees hsane id m.held.facet ?_
  unfold Core.view
  rw [OrdMap.find?_mapWithKey, core_find? hm]
  rfl

theorem inv_start (budgets : OrdMap Int DeviceBudget) : Inv (Manager.start budgets).core := by
  have hnone : ∀ id, (start budgets).core.modules.find? id = none := fun _ => rfl
  have hleases : ∀ k, (start budgets).core.leases.find? k = none := fun _ => rfl
  have hagrees : (start budgets).core.view.Agrees := fun id f hf => nomatch hf
  refine .of_closed ⟨fun id m hm => ?_, fun id m hm => ?_, fun k l hl => ?_, fun k l hl => ?_⟩ rfl
    hagrees hagrees (fun k l _ hl => ?_) fun e he => nomatch he
  · rw [hnone] at hm; cases hm
  · rw [hnone] at hm; cases hm
  · rw [hleases] at hl; cases hl
  · rw [hleases] at hl; cases hl
  · rw [hleases] at hl; cases hl

theorem room_start (budgets : OrdMap Int DeviceBudget) : Room (Manager.start budgets).core :=
  ⟨fun _ => Nat.zero_le _, fun _ _ => Nat.zero_le _⟩

/-! ## Runs -/

def RegistersWell (s : Manager) : Op → Prop
  | .registerModule desc => RegistersBeside s.core desc
  | _ => True

/-- A call that leaves all modules within a machine word and registers well. -/
def Regular (ev : Event Manager (Call × Reply)) : Prop :=
  ev.after.totalBytes ≤ u64Max ∧ RegistersWell ev.before ev.label.1.op

instance (c : Core) (desc : ModuleDesc) : Decidable (RegistersBeside c desc) :=
  inferInstanceAs (Decidable (c.epoch ≠ none → desc.initiallyResident = true →
    c.base.residentBytes desc.device + desc.bytes ≤ usableOf c.budgets desc.device))

instance (s : Manager) : (op : Op) → Decidable (RegistersWell s op)
  | .registerModule desc => inferInstanceAs (Decidable (RegistersBeside s.core desc))
  | .acquire _ _ | .release _ _ | .preparePolicy _ | .publishPolicy _ | .rollbackPolicy _
  | .finalizePolicy _ | .freePolicy _ => isTrue trivial

instance (ev : Event Manager (Call × Reply)) : Decidable (Regular ev) :=
  inferInstanceAs (Decidable (_ ∧ _))

theorem CoreStep.free_of_closed {c c' arg} (h : CoreStep c (.freePolicy arg) c')
    (hclosed : c.transaction = none) : c' = c := by
  cases h with
  | quiet => rfl
  | rollsBack _ _ _ _ running => rw [hclosed] at running; cases running
  | poisons _ _ _ _ _ running => rw [hclosed] at running; cases running
  | frees _ _ running => rw [hclosed] at running; cases running

theorem inv_step (h : Inv s.core) (hstep : Step s label s') : Inv s'.core := by
  rcases step_refines h.ordered hstep with hone | ⟨arg, c, -, hfirst, hsecond⟩
  · exact h.step hone
  · exact (h.step hfirst).step hsecond

theorem inv_of_run (hrun : Trace Step (Manager.start budgets) evs s) : Inv s.core :=
  (hrun.invariant (I := fun s => Inv s.core) (fun _ _ _ hi hs => inv_step hi hs)
    (inv_start budgets)).1

theorem room_step (h : Room s.core) (hinv : Inv s.core)
    (hstep : Step s label s') (hregular : Regular ⟨s, label, s'⟩) : Room s'.core := by
  obtain ⟨htotal, hregister⟩ := hregular
  have htotal : s'.core.totalBytes ≤ u64Max := totalBytes_core s' ▸ htotal
  rcases step_refines hinv.ordered hstep with hone | ⟨arg, c, hop, hfirst, hsecond⟩
  · refine h.step hinv hone htotal fun desc hdesc => ?_
    dsimp only at hregister
    rw [hdesc] at hregister
    exact hregister
  · have hmiddle := h.step hinv hfirst (Nat.le_trans hsecond.total_le htotal)
      fun desc hdesc => (nomatch hdesc)
    exact hmiddle.step (hinv.step hfirst) hsecond htotal fun desc hdesc => (nomatch hdesc)

theorem room_of_run (hrun : Trace Step (Manager.start budgets) evs s)
    (hregular : ∀ ev ∈ evs, Regular ev) : Room s.core :=
  (hrun.invariant_of (I := fun s => Inv s.core ∧ Room s.core) (C := Regular)
    (fun _ _ _ hi hs hc => ⟨inv_step hi.1 hs, room_step hi.2 hi.1 hs hc⟩) hregular
    ⟨inv_start budgets, room_start budgets⟩).1.2

/-! ## Under the contract -/

theorem publishPrepared_kept (hkept : answers.Kept) {id restored any}
    (h : Manager.publishPrepared answers s ts = .failed id restored any s' ts') :
    restored = true := by
  induction ts generalizing s s' ts' any with
  | nil => cases h
  | cons t rest ih =>
    rw [publishPrepared] at h
    split at h
    · split at h
      · cases h
      next hpub =>
        cases h
        exact ih hpub
    · split at h
      · cases h
        rfl
      dsimp only at h
      split at h
      · cases h
      next hpub =>
      rw [hkept.rollback] at h
      cases h
      exact ih hpub

theorem rollbackPublished_kept (hkept : answers.Kept) {id republished} :
    Manager.rollbackPublished answers s ts ≠ .failed id republished s' ts' := by
  induction ts generalizing s' ts' id republished with
  | nil => exact fun h => nomatch h
  | cons t rest ih =>
    intro h
    rw [rollbackPublished] at h
    split at h
    next hroll => exact ih hroll
    · split at h
      · cases h
      · rw [hkept.rollback] at h
        cases h

theorem CoreStep.same_transaction {c c' op} (h : CoreStep c op c') (hop : op.onPolicy = false)
    (hprepare : ∀ target, op ≠ .preparePolicy target) :
    c'.transaction = c.transaction := by
  cases h with
  | prepares target => exact absurd rfl (hprepare target)
  | rollsBack _ _ _ policy => rw [hop] at policy; cases policy
  | poisons _ _ _ _ policy => rw [hop] at policy; cases policy
  | publishes | finalizes | frees => cases hop
  | quiet | register | lease | join | opens | returned | left | commits | undoes => rfl

theorem rollbackPolicy_sane (hkept : answers.Kept)
    (hsane : s.core.Sane) (arg : Manager.TransactionArg) :
    (s.rollbackPolicy answers arg).1.core.Sane := by
  unfold rollbackPolicy
  split
  · exact hsane
  next t hopen =>
  obtain ⟨-, -, hpoisoned, -⟩ := openTransaction_spec hopen
  split
  next hroll => exact absurd hroll (rollbackPublished_kept hkept)
  · intro t' ht'
    cases ht'
    exact hpoisoned

theorem sane_step (hstep : Step s label s') (hkept : label.1.answers.Kept) (hsane : s.core.Sane) :
    s'.core.Sane := by
  obtain ⟨⟨op, answers⟩, reply⟩ := label
  unfold Step next at hstep
  cases op with
  | registerModule desc =>
    have hs' : (s.registerModule desc).1 = s' := congrArg Prod.fst (Option.some.inj hstep)
    have hsame := (registerModule_steps s desc).same_transaction rfl fun _ hne => nomatch hne
    rw [hs'] at hsame
    exact fun t ht => hsane t (hsame ▸ ht)
  | acquire requested restorePrior =>
    have hsame := (acquire_steps hstep).same_transaction rfl fun _ hne => nomatch hne
    exact fun t ht => hsane t (hsame ▸ ht)
  | release lease success =>
    have hsame := (release_steps hstep).same_transaction rfl fun _ hne => nomatch hne
    exact fun t ht => hsane t (hsame ▸ ht)
  | preparePolicy target =>
    have hs' : (s.preparePolicy answers target).1 = s' := congrArg Prod.fst (Option.some.inj hstep)
    have hcore := preparePolicy_steps s answers target
    rw [hs'] at hcore
    generalize s'.core = c' at hcore
    cases hcore with
    | quiet => exact hsane
    | prepares _ t _ _ _ drafted =>
      intro t' ht'
      cases ht'
      exact drafted.sane
    | rollsBack _ _ _ policy => cases policy
    | poisons _ _ _ _ policy => cases policy
  | publishPolicy arg =>
    have hs' : (s.publishPolicy answers arg).1 = s' := congrArg Prod.fst (Option.some.inj hstep)
    rw [← hs']
    unfold publishPolicy
    split
    · exact hsane
    next t hopen =>
    obtain ⟨-, -, hpoisoned, -⟩ := openTransaction_spec hopen
    split
    · exact hsane
    split
    · exact hsane
    split
    next id restored any s₁ modules hpub =>
      obtain rfl := publishPrepared_kept hkept hpub
      intro t' ht'
      cases ht'
      rfl
    · intro t' ht'
      cases ht'
      exact hpoisoned
  | rollbackPolicy arg =>
    have hs' : (s.rollbackPolicy answers arg).1 = s' := congrArg Prod.fst (Option.some.inj hstep)
    exact hs' ▸ rollbackPolicy_sane hkept hsane arg
  | finalizePolicy arg =>
    have hs' : (s.finalizePolicy answers arg).1 = s' := congrArg Prod.fst (Option.some.inj hstep)
    rw [← hs']
    unfold finalizePolicy
    split
    · exact hsane
    next t hopen =>
    obtain ⟨-, -, hpoisoned, -⟩ := openTransaction_spec hopen
    split
    next m hfind =>
      have hfailed := find?_some hfind
      rw [hkept.finalize] at hfailed
      simp at hfailed
    · intro t' ht'
      cases ht'
      exact hpoisoned
  | freePolicy arg =>
    have hs' : (s.freePolicy answers arg).1 = s' := congrArg Prod.fst (Option.some.inj hstep)
    rw [← hs']
    unfold freePolicy
    split
    · exact hsane
    · exact hsane
    split
    · exact hsane
    split
    · exact hsane
    split
    · have hroll := rollbackPolicy_sane hkept hsane .own
      split
      next heq =>
        rw [heq] at hroll
        exact hroll
      · exact fun t ht => nomatch ht
    · exact fun t ht => nomatch ht

theorem freshLeaseId_isSome (h : s.leases.size + 2 ≤ 2 ^ 64) :
    s.freshLeaseId.isSome := by
  by_contra hnone
  have hnone : s.freshLeaseId = none := Option.not_isSome_iff_eq_none.mp hnone
  have hall := find?_eq_none.mp hnone
  -- more candidates than numbers that are zero or taken
  have hsub : ((range (s.leases.size + 2)).map fun k => (s.nextLeaseId + k) % 2 ^ 64) ⊆
      0 :: s.leases.keys := by
    intro id hid
    have hused := hall id hid
    simp only [decide_eq_true_eq, not_and, not_not] at hused
    by_cases hzero : id = 0
    · simp [hzero]
    · exact mem_cons_of_mem _ (OrdMap.mem_keys.mpr (hused hzero))
  have hnodup : ((range (s.leases.size + 2)).map
      fun k => (s.nextLeaseId + k) % 2 ^ 64).Nodup := by
    refine List.Nodup.map_on (fun a ha b hb heq => ?_) nodup_range
    rw [mem_range] at ha hb
    omega
  have hlength := (subperm_of_subset hnodup hsub).length_le
  simp only [length_map, length_range, length_cons, OrdMap.keys] at hlength
  have hsize : s.leases.size = s.leases.toList.length := rfl
  omega

theorem acquire_isSome (hkept : answers.Kept)
    (hsize : s.leases.size + 2 ≤ 2 ^ 64) (requested : List String) (restorePrior : Bool) :
    (s.acquire answers requested restorePrior).isSome := by
  unfold acquire
  dsimp only
  split
  · rfl
  · rfl
  split
  · rfl
  split
  · rfl
  split
  · obtain ⟨id, hid⟩ := Option.isSome_iff_exists.mp
      (freshLeaseId_isSome (s := s.countTransaction) hsize)
    rw [hid]
    rfl
  split
  · rfl
  next owners next _ =>
  split
  · rfl
  obtain ⟨id, hid⟩ := Option.isSome_iff_exists.mp
    (freshLeaseId_isSome (s := { s.countTransaction with nextOwner := next }) hsize)
  rw [hid]
  dsimp only [Option.bind_some]
  unfold grantEpoch
  split
  · rfl
  unfold publishResidency
  dsimp only
  split
  next hpublish =>
    split at hpublish
    · cases hpublish
    · split at hpublish
      next habort => exact absurd habort (publishOwners_not_aborted hkept _ _)
      · cases hpublish
      · cases hpublish
  · rfl
  · rfl

theorem release_isSome (h : Inv s.core) (hkept : answers.Kept)
    (k : Nat) (success : Bool) : (s.release answers k success).isSome := by
  unfold release
  split
  · rfl
  next entry hfound =>
  split
  · rfl
  split
  · rfl
  next serial hinside hepoch =>
    obtain ⟨e, he, -⟩ := h.joined k entry serial hfound hinside
    have he : s.epoch = some e := he
    rw [hepoch] at he
    cases he
  next serial e hinside hepoch =>
  obtain ⟨e', he', hserial⟩ := h.joined k entry serial hfound hinside
  have he' : s.epoch = some e' := he'
  rw [hepoch] at he'
  cases he'
  have hinv := h.epoch e hepoch
  rw [if_neg (not_or.mpr ⟨not_not.mpr hserial, Nat.ne_of_gt hinv.running⟩)]
  dsimp only
  split
  · split
    · rfl
    split
    · rfl
    rw [Option.isSome_map]
    unfold resolveEpoch
    split
    · unfold finalizeResidency
      rw [if_pos hinv.published, if_neg]
      · rfl
      · simp [hkept.finalize]
    · unfold rollbackResidency
      rw [if_pos hinv.published, Option.isSome_map]
      exact rollbackOwners_isSome hkept _ _
  · rfl

/-- **In every run whose registrations leave room for undoing the open epoch, the manager
is consistent in every state**, and under the contract of the callbacks the resident flags
agree with the owners and no call aborts. -/
theorem manager_stays_consistent (budgets : OrdMap Int DeviceBudget)
    (evs : List (Event Manager (Call × Reply))) (s : Manager)
    (hrun : Trace Step (Manager.start budgets) evs s) (hregular : ∀ ev ∈ evs, Regular ev) :
    Consistent s ∧
    ((∀ ev ∈ evs, ev.label.1.answers.Kept) → OwnersAgree s ∧
      ∀ call : Call, call.answers.Kept → s.leases.size + 2 ≤ 2 ^ 64 → (next s call).isSome) := by
  have hinv := inv_of_run hrun
  refine ⟨hinv.consistent (room_of_run hrun hregular).fits, fun hkept => ⟨?_, ?_⟩⟩
  · -- the contract rules out poisoned transactions along the way
    have hsane := (hrun.invariant_of (I := fun s => s.core.Sane)
      (C := fun ev => ev.label.1.answers.Kept) (fun _ _ _ hi hs hc => sane_step hs hc hi)
      hkept fun t ht => nomatch ht).1
    exact hinv.ownersAgree hsane
  · rintro ⟨op, answers⟩ hanswers hsize
    cases op with
    | acquire requested restorePrior => exact acquire_isSome hanswers hsize requested restorePrior
    | release lease success => exact release_isSome hinv hanswers lease success
    | registerModule | preparePolicy | publishPolicy | rollbackPolicy | finalizePolicy
    | freePolicy => rfl

def tenBytes : OrdMap Int DeviceBudget := OrdMap.empty.insert 0 ⟨10, 0⟩

/-- Two modules, of which one makes room for the other and comes back. -/
def swapCalls : List Call :=
  [⟨.registerModule { id := "mtp", bytes := 10, initiallyResident := true }, {}⟩,
   ⟨.registerModule { id := "vision", kind := .vision, bytes := 5 }, {}⟩,
   ⟨.acquire ["vision"] true, {}⟩]

theorem manager_swaps_two_modules :
    ∃ evs s, Trace Step (Manager.start tenBytes) evs s ∧ s.residentBytes 0 = 5 ∧
      s.epoch.isSome ∧ Consistent s := by
  have hruns : (execute next (start tenBytes) swapCalls).any (fun r =>
      r.1.all (fun ev => decide (Regular ev)) && decide (r.2.residentBytes 0 = 5) &&
        r.2.epoch.isSome) = true := by decide +kernel
  obtain ⟨⟨evs, s⟩, hrun, hok⟩ := (Option.any_eq_true _ _).mp hruns
  simp only [Bool.and_eq_true, decide_eq_true_eq, all_eq_true] at hok
  have htrace := execute_trace hrun
  exact ⟨evs, s, htrace, hok.1.2, hok.2,
    (manager_stays_consistent tenBytes evs s htrace hok.1.1).1⟩

/-- A module is registered where the open swap left five bytes. Undoing it needs fifteen. -/
theorem registration_overcommits_a_device :
    ∃ evs s, Trace Step (Manager.start tenBytes) evs s ∧
      (∀ ev ∈ evs, ev.label.1.answers.Kept) ∧ s.totalBytes = 20 ∧
      s.usableBytes 0 = 10 ∧ s.residentBytes 0 = 15 := by
  have hruns : (execute next (start tenBytes) (swapCalls ++
      [⟨.registerModule { id := "audio", kind := .audio, bytes := 5, initiallyResident := true }, {}⟩,
       ⟨.release 1 false, {}⟩])).any (fun r => decide (r.2.totalBytes = 20) &&
        decide (r.2.usableBytes 0 = 10) && decide (r.2.residentBytes 0 = 15)) = true := by
    decide +kernel
  obtain ⟨⟨evs, s⟩, hrun, hok⟩ := (Option.any_eq_true _ _).mp hruns
  simp only [Bool.and_eq_true, decide_eq_true_eq] at hok
  refine ⟨evs, s, execute_trace hrun, fun ev hev => ?_, hok.1.1, hok.1.2, hok.2⟩
  have hlabel : ev.label.1 ∈ evs.map fun ev => ev.label.1 := mem_map_of_mem hev
  rw [execute_actions hrun] at hlabel
  simp only [swapCalls, cons_append, nil_append, mem_cons, not_mem_nil,
    or_false] at hlabel
  rcases hlabel with heq | heq | heq | heq | heq <;> rw [heq] <;> exact ⟨fun _ => rfl, fun _ => rfl⟩

end ExpertStreaming.Transient
