import ExpertStreaming.Transient.Grant

/-! # Giving every lease back

The holder of a lease can return it at any time, with any report. If the callbacks agree no
release is refused, in whatever order the leases come back, and with the last of them the open
epoch is over. What could be granted to an idle manager then is, and a shutdown ends.
-/
namespace ExpertStreaming.Transient

open Lib Planner Manager List

/-- What a request is checked against, apart from residency: descriptions and enabled flags. -/
def Core.offers (c : Core) : OrdMap String (ModuleDesc × Bool) :=
  c.modules.mapWithKey fun _ m => (m.desc, m.enabled)

variable {c c' : Core} {s s' : Manager} {k : Nat} {success : Bool} {requested : List String}

theorem Core.offers_update {f : String → Held → Held}
    (hf : ∀ id m, (f id m).desc = m.desc ∧ (f id m).enabled = m.enabled) :
    (c.update f).offers = c.offers := by
  unfold offers update
  dsimp only
  rw [OrdMap.mapWithKey_mapWithKey]
  simp only [hf]

/-- An accepted release removes its lease and changes nothing a request is checked against. -/
theorem CoreStep.released {l} (h : CoreStep c (.release k success) c')
    (hl : c.leases.find? k = some l) (hgone : c'.leases.find? k = none) :
    c'.leases = c.leases.erase k ∧ c'.transaction = c.transaction ∧ c'.budgets = c.budgets ∧
      c'.offers = c.offers := by
  cases h with
  | quiet => rw [hl] at hgone; cases hgone
  | returned | left | commits => exact ⟨rfl, rfl, rfl, Core.offers_update fun _ _ => ⟨rfl, rfl⟩⟩
  | undoes =>
    refine ⟨rfl, rfl, rfl, ?_⟩
    refine (Core.offers_update ?_).trans (Core.offers_update ?_) <;> exact fun _ _ => ⟨rfl, rfl⟩
  | rollsBack _ _ _ policy => cases policy
  | poisons _ _ _ _ policy => cases policy

theorem offers_core (s : Manager) :
    s.core.offers = s.modules.mapWithKey fun _ m => (m.desc, m.enabled) := by
  unfold Core.offers core
  rw [OrdMap.mapWithKey_mapWithKey]
  rfl

theorem Grantable.of_offers (h : Grantable s requested) (hbudgets : s'.budgets = s.budgets)
    (hoffers : s'.core.offers = s.core.offers) : Grantable s' requested := by
  rw [offers_core, offers_core] at hoffers
  have hsum : ∀ f : String → ModuleDesc × Bool → Nat,
      (s'.modules.sumBy fun id m => f id (m.desc, m.enabled)) =
        s.modules.sumBy fun id m => f id (m.desc, m.enabled) := fun f => by
    have hmapped := congrArg (OrdMap.sumBy f) hoffers
    rwa [OrdMap.sumBy_mapWithKey, OrdMap.sumBy_mapWithKey] at hmapped
  have hfind : ∀ id, ((s'.modules.find? id).map fun m => (m.desc, m.enabled)) =
      (s.modules.find? id).map fun m => (m.desc, m.enabled) := fun id => by
    have hmapped := congrArg (OrdMap.find? · id) hoffers
    simpa only [OrdMap.find?_mapWithKey] using hmapped
  refine ⟨?_, fun id hid => ?_, fun id m hm => ?_, fun device => ?_⟩
  · exact (hsum fun _ x => x.1.bytes).trans_le h.total
  · obtain ⟨m, hm, henabled⟩ := h.enabled id hid
    have hsame := hfind id
    rw [hm] at hsame
    obtain ⟨m', hm', heq⟩ := Option.map_eq_some_iff.mp hsame
    exact ⟨m', hm', (congrArg Prod.snd heq).trans henabled⟩
  · have hsame := (hfind id).symm
    rw [hm] at hsame
    obtain ⟨m', hm', heq⟩ := Option.map_eq_some_iff.mp hsame
    exact congrArg (fun x => x.1.exactCallbacks) heq ▸ h.exact_callbacks id m' hm'
  · unfold Manager.usableBytes
    rw [hbudgets]
    exact (hsum fun id x => if id ∈ requested ∧ x.1.device = device then x.1.bytes else 0).trans_le
      (h.room device)

theorem pinsOf_pos {l id} (hinv : Inv s.core) (hl : s.leases.find? k = some l)
    (hid : id ∈ l.requested) : s.pinsOf id ≠ 0 := by
  obtain ⟨held, hheld, -⟩ := hinv.held k l hl id hid
  obtain ⟨m, hm, rfl⟩ := find?_of_core hheld
  have hpins : m.pins = s.core.requests id := hinv.pins id m.held hheld
  have hcount : (if id ∈ l.requested then 1 else 0) ≤ s.core.requests id :=
    OrdMap.le_sumBy (fun _ l => if id ∈ l.requested then 1 else 0) hl
  rw [if_pos hid] at hcount
  simp only [pinsOf, hm]
  omega

/-- No callback fails. -/
structure Answers.Agree (answers : Answers) : Prop extends answers.Kept where
  quiesce : ∀ id, answers.quiesce id = true
  reserve : answers.reserveQuiesce = none

theorem agree_default : Answers.Agree {} := ⟨⟨fun _ => rfl, fun _ => rfl⟩, fun _ => rfl, rfl⟩

/-- A lease that is held is given back, if no callback fails. -/
theorem release_accepted {l answers} (hinv : Inv s.core) (hagree : Answers.Agree answers)
    (hl : s.leases.find? k = some l) (success : Bool) :
    ∃ s', s.release answers k success = some (s', .accepted) := by
  obtain ⟨⟨s', reply⟩, hr⟩ := Option.isSome_iff_exists.mp
    (release_isSome hinv hagree.toKept k success)
  have hpinned : l.requested.find? (fun id => decide (s.pinsOf id = 0)) = none :=
    find?_eq_none.mpr fun id hid => by simp [pinsOf_pos hinv hl hid]
  have hreply : reply = .accepted := by
    simp only [release, hl, hpinned, hagree.reserve] at hr
    split at hr
    · exact (congrArg Prod.snd (Option.some.inj hr)).symm
    · cases hr
    split at hr
    · cases hr
    split at hr
    · split at hr
      next hfails =>
        have hfalse := find?_some hfails
        simp [hagree.quiesce] at hfalse
      obtain ⟨_, -, heq⟩ := Option.map_eq_some_iff.mp hr
      exact (congrArg Prod.snd heq).symm
    · exact (congrArg Prod.snd (Option.some.inj hr)).symm
  exact ⟨s', hreply ▸ hr⟩

def releases (success : Nat → Bool) (keys : List Nat) : List Call :=
  keys.map fun k => ⟨.release k (success k), {}⟩

/-- What giving back the leases `keys` leaves. -/
structure GaveBack (s s' : Manager) (keys : List Nat) : Prop where
  inv : Inv s'.core
  leases : ∀ k, s'.leases.find? k = if k ∈ keys then none else s.leases.find? k
  transaction : s'.transaction = s.transaction
  budgets : s'.budgets = s.budgets
  offers : s'.core.offers = s.core.offers

theorem gave_back (hinv : Inv s.core) (success : Nat → Bool) {keys : List Nat}
    (hnodup : keys.Nodup) (hheld : ∀ k ∈ keys, ∃ l, s.leases.find? k = some l) :
    ∃ evs s', execute next s (releases success keys) = some (evs, s') ∧
      (∀ ev ∈ evs, ev.label.2 = .accepted) ∧ GaveBack s s' keys := by
  induction keys generalizing s with
  | nil => exact ⟨[], s, rfl, by simp, hinv, by simp, rfl, rfl, rfl⟩
  | cons k keys ih =>
    obtain ⟨hnotin, hnodup⟩ := nodup_cons.mp hnodup
    obtain ⟨l, hl⟩ := hheld k mem_cons_self
    obtain ⟨t, ht⟩ := release_accepted hinv agree_default hl (success k)
    have hstep : Step s (⟨.release k (success k), {}⟩, .accepted) t := ht
    rcases release_cases ht with ⟨hne, -⟩ | ⟨-, hgone, hcore⟩
    · exact absurd rfl hne
    obtain ⟨hleases, htransaction, hbudgets, hoffers⟩ := hcore.released hl hgone
    have hleases : t.leases = s.leases.erase k := hleases
    have hlater : ∀ k' ∈ keys, ∃ l, t.leases.find? k' = some l := fun k' hk' => by
      have hne : k' ≠ k := fun heq => hnotin (heq ▸ hk')
      rw [hleases, OrdMap.find?_erase, if_neg hne]
      exact hheld k' (mem_cons_of_mem _ hk')
    obtain ⟨evs, s', hrest, haccepted, hback⟩ :=
      ih (s := t) (inv_step hinv hstep) hnodup hlater
    refine ⟨⟨s, (⟨.release k (success k), {}⟩, .accepted), t⟩ :: evs, s', ?_, ?_, hback.inv, ?_,
      hback.transaction.trans htransaction, hback.budgets.trans hbudgets,
      hback.offers.trans hoffers⟩
    · have hnext : next s ⟨.release k (success k), {}⟩ = some (t, .accepted) := ht
      simp only [releases, map_cons, execute, hnext]
      exact congrArg (Option.map _) hrest
    · simpa using haccepted
    · intro k'
      rw [hback.leases k', hleases, OrdMap.find?_erase]
      by_cases hk : k' = k <;> simp [hk]

theorem Inv.no_epoch (hinv : Inv s.core) (hnone : ∀ k, s.leases.find? k = none) :
    s.epoch = none := by
  cases he : s.epoch with
  | none => rfl
  | some e =>
    -- an open epoch counts its leases
    have hcount := hinv.epoch e he
    have hzero : s.core.members e.serial = 0 := OrdMap.sumBy_eq_zero fun k l hl => by
      have hl : s.leases.find? k = some l := hl
      rw [hnone] at hl
      cases hl
    have hrunning := hcount.running
    rw [hcount.members, hzero] at hrunning
    cases hrunning

/-- **Every lease can be given back, in any order and with any reports.** In every state the
manager can reach without an open policy transaction, releasing all leases is accepted and
leaves no lease and no epoch. Every request for enabled modules that fit their devices
together is then granted. -/
theorem leases_can_be_given_back (budgets : OrdMap Int DeviceBudget)
    (evs : List (Event Manager (Call × Reply))) (s : Manager)
    (hrun : Trace Step (Manager.start budgets) evs s) (hclosed : s.transaction = none)
    (success : Nat → Bool) (keys : List Nat) (hkeys : keys.Perm s.leases.keys) :
    ∃ evs' s', execute next s (releases success keys) = some (evs', s') ∧
      (∀ ev ∈ evs', ev.label.2 = .accepted) ∧ s'.leases.isEmpty = true ∧ s'.epoch = none ∧
      ∀ requested restorePrior, Grantable s requested →
        ∃ s'' k, Step s' (⟨.acquire requested restorePrior, {}⟩, .lease k) s'' := by
  have hheld : ∀ k, k ∈ keys ↔ ∃ l, s.leases.find? k = some l := fun k => by
    rw [hkeys.mem_iff, OrdMap.mem_keys]
    exact Option.isSome_iff_exists
  obtain ⟨evs', s', hexec, haccepted, hback⟩ := gave_back (inv_of_run hrun) success
    (hkeys.nodup_iff.mpr s.leases.nodup_keys) fun k hk => (hheld k).mp hk
  have hnone : ∀ k, s'.leases.find? k = none := fun k => by
    rw [hback.leases k]
    split
    · rfl
    next hk => exact Option.eq_none_iff_forall_ne_some.mpr fun l hl => hk ((hheld k).mpr ⟨l, hl⟩)
  have hidle := OrdMap.isEmpty_iff.mpr hnone
  have hepoch := hback.inv.no_epoch hnone
  refine ⟨evs', s', hexec, haccepted, hidle, hepoch, fun requested restorePrior hgrant => ?_⟩
  exact acquire_granted hback.inv hidle hepoch (hback.transaction.trans hclosed)
    (hgrant.of_offers hback.budgets hback.offers) restorePrior

theorem two_leases_held : ∃ evs s, Trace Step (Manager.start tenBytes) evs s ∧
    s.transaction = none ∧ s.leases.keys = [1, 2] := by
  have hruns : (execute next (Manager.start tenBytes)
      (swapCalls ++ [⟨.acquire ["vision"] true, {}⟩])).any (fun r =>
        r.2.transaction.isNone && decide (r.2.leases.keys = [1, 2])) = true := by
    decide +kernel
  obtain ⟨⟨evs, s⟩, hrun, hok⟩ := (Option.any_eq_true _ _).mp hruns
  simp only [Bool.and_eq_true, decide_eq_true_eq] at hok
  exact ⟨evs, s, execute_trace hrun, Option.isNone_iff_eq_none.mp hok.1, hok.2⟩

theorem two_leases_come_back :
    ∃ evs s evs' s', Trace Step (Manager.start tenBytes) evs s ∧ s.leases.keys = [1, 2] ∧
      execute next s (releases (fun _ => false) [2, 1]) = some (evs', s') ∧
      (∀ ev ∈ evs', ev.label.2 = .accepted) ∧ s'.leases.isEmpty = true ∧ s'.epoch = none := by
  obtain ⟨evs, s, hrun, hclosed, hkeys⟩ := two_leases_held
  have hperm : Perm [2, 1] s.leases.keys := by
    rw [hkeys]
    exact .swap 1 2 []
  obtain ⟨evs', s', hexec, haccepted, hidle, hepoch, -⟩ := leases_can_be_given_back tenBytes evs s
    hrun hclosed (fun _ => false) [2, 1] hperm
  exact ⟨evs, s, evs', s', hrun, hkeys, hexec, haccepted, hidle, hepoch⟩

/-! ## Shutting down -/

/-- `resolve_all_leases_for_shutdown`; `none` when it aborts or needs more rounds. -/
def Manager.resolveAllLeases (answers : Answers) : Nat → Manager → Option (Manager × Reply)
  | 0, _ => none
  | fuel + 1, s =>
    if s.transaction.isSome then
      some (s.refuse "cannot resolve request leases while policy reconfiguration is open")
    else
      match s.leases.keys with
      | [] => if s.epoch.isSome then none else some (s, .accepted)
      | k :: _ =>
        match s.release answers k false with
        | some (s', .accepted) => resolveAllLeases answers fuel s'
        | stopped => stopped

def ShutDown (answers : Answers) (fuel : Nat) (s : Manager) : Prop :=
  ∃ s' reply, s.resolveAllLeases answers fuel = some (s', reply) ∧
    (reply = .accepted → s'.leases.isEmpty = true ∧ s'.epoch = none) ∧
    (answers.Agree → reply = .accepted)

theorem shutDown_of_inv {answers fuel} (hinv : Inv s.core) (hclosed : s.transaction = none)
    (hkept : answers.Kept) (hfuel : s.leases.keys.length < fuel) : ShutDown answers fuel s := by
  induction fuel generalizing s with
  | zero => cases hfuel
  | succ fuel ih =>
    unfold ShutDown Manager.resolveAllLeases
    rw [hclosed]
    cases hkeys : s.leases.keys with
    | nil =>
      have hnone : ∀ k, s.leases.find? k = none := fun k => by
        have hnot : k ∉ s.leases.keys := hkeys ▸ not_mem_nil
        rw [OrdMap.mem_keys] at hnot
        exact Option.not_isSome_iff_eq_none.mp hnot
      have hepoch := hinv.no_epoch hnone
      rw [hepoch]
      exact ⟨s, .accepted, rfl, fun _ => ⟨OrdMap.isEmpty_iff.mpr hnone, hepoch⟩, fun _ => rfl⟩
    | cons k rest =>
      have hmem : k ∈ s.leases.keys := hkeys ▸ mem_cons_self
      rw [OrdMap.mem_keys] at hmem
      obtain ⟨l, hl⟩ := Option.isSome_iff_exists.mp hmem
      obtain ⟨⟨t, reply⟩, hr⟩ :=
        Option.isSome_iff_exists.mp (release_isSome hinv hkept k false)
      rcases release_cases hr with ⟨hne, -⟩ | ⟨rfl, hgone, hcore⟩
      · refine ⟨t, reply, ?_, fun heq => absurd heq hne, fun hagree => ?_⟩
        · cases reply with
          | accepted => exact absurd rfl hne
          | lease | refused => simp [hr]
        · obtain ⟨s', hs'⟩ := release_accepted hinv hagree hl false
          rw [hs'] at hr
          exact (congrArg Prod.snd (Option.some.inj hr)).symm
      · obtain ⟨hleases, htransaction, -⟩ := hcore.released hl hgone
        have hstep : Step s (⟨.release k false, answers⟩, .accepted) t := hr
        have hleases : t.leases = s.leases.erase k := hleases
        have hfewer : t.leases.keys.length < fuel := by
          have hcount := OrdMap.sumBy_erase (fun _ _ => 1) hl
          rw [← hleases] at hcount
          simp [OrdMap.sumBy, OrdMap.keys] at hcount hfuel ⊢
          omega
        obtain ⟨s', reply, hs', hends⟩ :=
          ih (inv_step hinv hstep) (htransaction.trans hclosed) hfewer
        refine ⟨s', reply, ?_, hends⟩
        simp only [hr]
        exact hs'

/-- **A shutdown resolves every lease.** In every state the manager can reach, without an open
policy transaction and whatever the callbacks answer within their contract, the loop ends after
at most one round for each lease and never aborts; it succeeds if no callback fails, and then
neither a lease nor an epoch is left. -/
theorem shutdown_resolves_all_leases (budgets : OrdMap Int DeviceBudget)
    (evs : List (Event Manager (Call × Reply))) (s : Manager)
    (hrun : Trace Step (Manager.start budgets) evs s) (hclosed : s.transaction = none)
    (answers : Answers) (hkept : answers.Kept) :
    ShutDown answers (s.leases.keys.length + 1) s :=
  shutDown_of_inv (inv_of_run hrun) hclosed hkept (Nat.lt_succ_self _)

theorem two_leases_are_resolved : ∃ evs s, Trace Step (Manager.start tenBytes) evs s ∧
    s.leases.keys = [1, 2] ∧ ShutDown {} 3 s := by
  obtain ⟨evs, s, hrun, hclosed, hkeys⟩ := two_leases_held
  have hdown := shutdown_resolves_all_leases tenBytes evs s hrun hclosed {} agree_default.toKept
  rw [hkeys] at hdown
  exact ⟨evs, s, hrun, hkeys, hdown⟩

end ExpertStreaming.Transient
