import ExpertStreaming.Lib.Fold
import ExpertStreaming.Transient.Refine

/-! # Policy transactions refine the abstract machine

A publication either exchanges all prepared owners or, when its callbacks let it, none;
the same for a rollback. The budgets of a policy hold its one resident module.
-/
namespace ExpertStreaming.Transient

open Lib Planner Manager OrdMap List
open Option (isSome_iff_exists some)

/-- The handles of the open change are where its state says they are. -/
structure Core.Ordered (c : Core) : Prop where
  prepared : ∀ t, c.transaction = some t → t.poisoned = false → t.state = .prepared →
    ∀ tr ∈ t.modules, tr.published = false ∧ ∀ h, tr.handle = some h → h.swapped = false
  published : ∀ t, c.transaction = some t → t.poisoned = false → t.state = .published →
    ∀ tr ∈ t.modules, ∀ h, tr.handle = some h → tr.published = true ∧ h.swapped = true

/-! ## Exchanging the owners of a policy -/

def LiveOnly (s s' : Manager) : Prop := s'.core = { s.core with live := s'.live }

variable {s s' : Manager} {t : PolicyTransition} {h : Handle (Option Owner)} {answers : Answers}
  {ts ts' modules : List PolicyTransition} {id : String} {out : List PolicyTransition × Owner}
  {target : TransientPolicy} {aggregates : Manager.Aggregates} {draft : PolicyTransaction}
  {arg : Manager.TransactionArg}

theorem LiveOnly.trans {s''} (h : LiveOnly s s') (h' : LiveOnly s' s'') :
    LiveOnly s s'' := by
  unfold LiveOnly at *
  rw [h', h]

theorem publishOne_liveOnly (s : Manager) (t : PolicyTransition) :
    LiveOnly s (s.publishOne t).1 := by
  unfold publishOne
  split
  · rfl
  · rfl

theorem rollbackOne_liveOnly (s : Manager) (t : PolicyTransition) :
    LiveOnly s (s.rollbackOne t).1 := by
  unfold rollbackOne
  split
  · rfl
  · rfl

theorem publishOne_some
    (ht : t.handle = some h) : (s.publishOne t).1.live = (h.publish s.live t.id).1 ∧
      (s.publishOne t).2 =
        { t with handle := some (h.publish s.live t.id).2, published := true } := by
  rw [publishOne, ht]
  exact ⟨rfl, rfl⟩

theorem rollbackOne_some
    (ht : t.handle = some h) : (s.rollbackOne t).1.live = (h.rollback s.live t.id).1 ∧
      (s.rollbackOne t).2 =
        { t with handle := some (h.rollback s.live t.id).2, published := false } := by
  rw [rollbackOne, ht]
  exact ⟨rfl, rfl⟩

def Ready (t : PolicyTransition) : Prop :=
  t.published = false ∧ ∀ h, t.handle = some h → h.swapped = false

def Swapped (t : PolicyTransition) : Prop :=
  ∀ h, t.handle = some h → t.published = true ∧ h.swapped = true

theorem rollbackOne_publishOne (hready : Ready t)
    (hsome : t.handle.isSome) (hlive : s'.live = (s.publishOne t).1.live) :
    (s'.rollbackOne (s.publishOne t).2).1.live = s.live ∧
      (s'.rollbackOne (s.publishOne t).2).2 = t := by
  obtain ⟨h, ht⟩ := isSome_iff_exists.mp hsome
  have hback := Handle.rollback_publish (hready.2 h ht) s.live t.id
  obtain ⟨hone, htwo⟩ := publishOne_some (s := s) ht
  rw [htwo]
  obtain ⟨hlive', ht'⟩ := rollbackOne_some (s := s')
    (t := { t with handle := some (h.publish s.live t.id).2, published := true }) rfl
  rw [hlive', ht', hlive, hone]
  dsimp only
  rw [hback]
  refine ⟨rfl, ?_⟩
  obtain ⟨id, handle, _, _, _, _, published⟩ := t
  obtain rfl : published = false := hready.1
  obtain rfl : handle = some h := ht
  rfl

theorem publishOne_rollbackOne (hswapped : Swapped t)
    (hsome : t.handle.isSome) (hlive : s'.live = (s.rollbackOne t).1.live) :
    (s'.publishOne (s.rollbackOne t).2).1.live = s.live ∧
      (s'.publishOne (s.rollbackOne t).2).2 = t := by
  obtain ⟨h, ht⟩ := isSome_iff_exists.mp hsome
  have hback := Handle.publish_rollback (hswapped h ht).2 s.live t.id
  obtain ⟨hone, htwo⟩ := rollbackOne_some (s := s) ht
  rw [htwo]
  obtain ⟨hlive', ht'⟩ := publishOne_some (s := s')
    (t := { t with handle := some (h.rollback s.live t.id).2, published := false }) rfl
  rw [hlive', ht', hlive, hone]
  dsimp only
  rw [hback]
  refine ⟨rfl, ?_⟩
  obtain ⟨id, handle, _, _, _, _, published⟩ := t
  obtain rfl : handle = some h := ht
  obtain rfl : published = true := (hswapped h rfl).1
  rfl

def Manager.PolicyPublication.manager : Manager.PolicyPublication → Manager
  | .published s _ => s
  | .failed _ _ _ s _ => s

theorem publishPrepared_liveOnly (answers : Answers) (ts : List PolicyTransition) (s : Manager) :
    LiveOnly s (Manager.publishPrepared answers s ts).manager := by
  induction ts generalizing s with
  | nil => rfl
  | cons t rest ih =>
    rw [publishPrepared]
    split
    · have hrest := ih s
      cases hpub : publishPrepared answers s rest with
      | published s' rest' => rw [hpub] at hrest; exact hrest
      | failed id restored any s' rest' => rw [hpub] at hrest; exact hrest
    · split
      · rfl
      · have hrest := (publishOne_liveOnly s t).trans (ih (s.publishOne t).1)
        dsimp only
        cases hpub : publishPrepared answers (s.publishOne t).1 rest with
        | published s' rest' => rw [hpub] at hrest; exact hrest
        | failed id restored any s' rest' =>
          rw [hpub] at hrest
          dsimp only
          split
          · exact hrest
          · exact hrest.trans (rollbackOne_liveOnly s' _)

def SameFlags (t t' : PolicyTransition) : Prop :=
  t'.id = t.id ∧ t'.priorEnabled = t.priorEnabled ∧ t'.priorResident = t.priorResident ∧
    t'.targetEnabled = t.targetEnabled ∧ t'.targetResident = t.targetResident

theorem SameFlags.refl (t : PolicyTransition) : SameFlags t t := ⟨rfl, rfl, rfl, rfl, rfl⟩

theorem publishOne_sameFlags (s : Manager) (t : PolicyTransition) :
    SameFlags t (s.publishOne t).2 := by
  unfold publishOne
  split
  · exact .refl t
  · exact ⟨rfl, rfl, rfl, rfl, rfl⟩

theorem rollbackOne_sameFlags (s : Manager) (t : PolicyTransition) :
    SameFlags t (s.rollbackOne t).2 := by
  unfold rollbackOne
  split
  · exact .refl t
  · exact ⟨rfl, rfl, rfl, rfl, rfl⟩

def handlesOf (ts : List PolicyTransition) : List (String × Handle (Option Owner)) :=
  (ts.filter PolicyTransition.published).filterMap fun m => m.handle.map fun h => (m.id, h)

theorem handlesOf_cons_none (h : t.handle = none)
    (ts : List PolicyTransition) : handlesOf (t :: ts) = handlesOf ts := by
  unfold handlesOf
  cases hp : t.published with
  | true => rw [filter_cons_of_pos hp, filterMap_cons_none (by rw [h]; rfl)]
  | false => rw [filter_cons_of_neg (by simp [hp])]

theorem handlesOf_cons_some
    (hp : t.published = true) (ht : t.handle = some h) (ts : List PolicyTransition) :
    handlesOf (t :: ts) = (t.id, h) :: handlesOf ts := by
  unfold handlesOf
  rw [filter_cons_of_pos hp, filterMap_cons_some (by rw [ht]; rfl)]

theorem publishPrepared_published (hready : ∀ t ∈ ts, Ready t)
    (h : Manager.publishPrepared answers s ts = .published s' ts') :
    List.Forall₂ SameFlags ts ts' ∧ (∀ t ∈ ts', Swapped t) ∧
    undoAll s'.live (handlesOf ts') = s.live ∧
    (∀ id ∉ ts.map PolicyTransition.id, s'.live id = s.live id) ∧
    ((ts.map PolicyTransition.id).Nodup → ∀ t ∈ ts,
      (t.handle = none → s'.live t.id = s.live t.id) ∧
      ∀ h, t.handle = some h → s'.live t.id = h.side) := by
  induction ts generalizing s ts' with
  | nil =>
    cases h
    exact ⟨.nil, by simp, rfl, fun _ _ => rfl, by simp⟩
  | cons t rest ih =>
    have hone := hready t (by simp)
    have hrest := fun t' ht' => hready t' (mem_cons_of_mem _ ht')
    rw [publishPrepared] at h
    split at h
    next hnone =>
      have hnone := Option.isNone_iff_eq_none.mp hnone
      split at h
      next s₂ rest' hpub =>
        cases h
        obtain ⟨hall, hswapped, hundo, hother, hmoved⟩ := ih hrest hpub
        refine ⟨.cons (.refl t) hall, fun t' ht' => ?_, ?_, fun id hid => ?_, fun hnodup t' ht' => ?_⟩
        · rcases mem_cons.mp ht' with rfl | ht'
          · intro h hh
            rw [hnone] at hh
            cases hh
          · exact hswapped t' ht'
        · rw [handlesOf_cons_none hnone, hundo]
        · simp only [map_cons, mem_cons, not_or] at hid
          exact hother id hid.2
        · obtain ⟨hnew, hnodup⟩ := nodup_cons.mp hnodup
          rcases mem_cons.mp ht' with rfl | ht'
          · refine ⟨fun _ => hother _ hnew, fun h hh => ?_⟩
            rw [hnone] at hh
            cases hh
          · exact hmoved hnodup t' ht'
      · cases h
    next hsome =>
    obtain ⟨h₀, ht₀⟩ := Option.ne_none_iff_exists'.mp (by simpa using hsome)
    split at h
    · cases h
    dsimp only at h
    split at h
    next s₂ rest' hpub =>
      cases h
      obtain ⟨hall, hswapped, hundo, hother, hmoved⟩ := ih hrest hpub
      obtain ⟨hlive, htrans⟩ := publishOne_some (s := s) ht₀
      have hswap := Handle.publish_eq (hone.2 h₀ ht₀) s.live t.id
      refine ⟨.cons (publishOne_sameFlags s t) hall, fun t' ht' => ?_, ?_, fun id hid => ?_,
        fun hnodup t' ht' => ?_⟩
      · rcases mem_cons.mp ht' with rfl | ht'
        · intro h hh
          rw [htrans] at hh ⊢
          cases hh
          exact ⟨rfl, by rw [hswap]⟩
        · exact hswapped t' ht'
      · have hback := Handle.rollback_publish (hone.2 h₀ ht₀) s.live t.id
        rw [htrans, handlesOf_cons_some rfl rfl, undoAll_cons, hundo, hlive]
        dsimp only
        rw [hback]
      · simp only [map_cons, mem_cons, not_or] at hid
        rw [hother id hid.2, hlive, hswap]
        exact Function.update_of_ne hid.1 _ _
      · obtain ⟨hnew, hnodup⟩ := nodup_cons.mp hnodup
        rcases mem_cons.mp ht' with rfl | ht'
        · refine ⟨fun hnone => by simp [ht₀] at hnone, fun h hh => ?_⟩
          rw [ht₀] at hh
          cases hh
          rw [hother _ hnew, hlive, hswap]
          exact Function.update_self _ _ _
        · obtain ⟨hkept, hside⟩ := hmoved hnodup t' ht'
          refine ⟨fun hnone => ?_, hside⟩
          have hne : t'.id ≠ t.id := fun heq => hnew (heq ▸ mem_map_of_mem ht')
          rw [hkept hnone, hlive, hswap]
          exact Function.update_of_ne hne _ _
    · split at h
      · cases h
      · cases h

theorem publishPrepared_restored {any} (hready : ∀ t ∈ ts, Ready t)
    (h : Manager.publishPrepared answers s ts = .failed id true any s' ts') :
    s'.live = s.live ∧ ts' = ts := by
  induction ts generalizing s s' ts' any with
  | nil => cases h
  | cons t rest ih =>
    have hrest := fun t' ht' => hready t' (mem_cons_of_mem _ ht')
    rw [publishPrepared] at h
    split at h
    · split at h
      · cases h
      next id restored any s₂ rest' hpub =>
      cases h
      obtain ⟨hlive, rfl⟩ := ih hrest hpub
      exact ⟨hlive, rfl⟩
    next hsome =>
    split at h
    · cases h
      exact ⟨rfl, rfl⟩
    dsimp only at h
    split at h
    · cases h
    next id restored any s₂ rest' hpub =>
    split at h
    · cases h
    · cases h
      obtain ⟨hlive, rfl⟩ := ih hrest hpub
      obtain ⟨hback, htrans⟩ := rollbackOne_publishOne (hready t (by simp))
        (Option.isSome_iff_ne_none.mpr fun hnone =>
          hsome (Option.isNone_iff_eq_none.mpr hnone)) hlive
      exact ⟨hback, by rw [htrans]⟩

/-! ## Rolling a policy back -/

theorem republish_liveOnly (answers : Answers) (ts : List PolicyTransition) (s : Manager) :
    LiveOnly s (Manager.republish answers s ts).1 := by
  induction ts generalizing s with
  | nil => rfl
  | cons t rest ih =>
    rw [republish]
    split
    · exact ih s
    · split
      · exact ih s
      · exact (publishOne_liveOnly s t).trans (ih _)

def Manager.PolicyRollback.manager : Manager.PolicyRollback → Manager
  | .rolledBack s _ => s
  | .failed _ _ s _ => s

theorem rollbackPublished_liveOnly (answers : Answers) (ts : List PolicyTransition) (s : Manager) :
    LiveOnly s (Manager.rollbackPublished answers s ts).manager := by
  induction ts with
  | nil => rfl
  | cons t rest ih =>
    rw [rollbackPublished]
    cases hroll : rollbackPublished answers s rest with
    | failed id republished s' rest' => rw [hroll] at ih; exact ih
    | rolledBack s' rest' =>
      rw [hroll] at ih
      dsimp only
      split
      · exact ih
      · split
        · exact ih.trans (republish_liveOnly answers rest' s')
        · exact ih.trans (rollbackOne_liveOnly s' t)

theorem rollbackPublished_rolledBack
    (h : Manager.rollbackPublished answers s ts = .rolledBack s' ts') :
    s'.live = undoAll s.live (handlesOf ts) ∧ List.Forall₂ SameFlags ts ts' := by
  induction ts generalizing s' ts' with
  | nil =>
    cases h
    exact ⟨rfl, .nil⟩
  | cons t rest ih =>
    rw [rollbackPublished] at h
    split at h
    · cases h
    next s₂ rest' hroll =>
    obtain ⟨hlive, hall⟩ := ih hroll
    split at h
    next hskip =>
      cases h
      refine ⟨?_, .cons (.refl t) hall⟩
      rcases hskip with hunpublished | hnone
      · rw [hlive, handlesOf, handlesOf,
          filter_cons_of_neg (by simp [hunpublished])]
      · rw [hlive, handlesOf_cons_none (Option.isNone_iff_eq_none.mp hnone)]
    next hswap =>
    obtain ⟨hpublished, hsome⟩ := not_or.mp hswap
    obtain ⟨h₀, ht₀⟩ := Option.ne_none_iff_exists'.mp (by simpa using hsome)
    split at h
    · cases h
    · cases h
      refine ⟨?_, .cons (rollbackOne_sameFlags s₂ t) hall⟩
      rw [(rollbackOne_some ht₀).1, hlive,
        handlesOf_cons_some (Bool.not_eq_false _ ▸ hpublished) ht₀]
      rfl

theorem republish_rollbackPublished {ts'' s''} (hswapped : ∀ t ∈ ts, Swapped t)
    (h : Manager.rollbackPublished answers s ts = .rolledBack s' ts') {s₁} (hs₁ : s₁.live = s'.live)
    (hagain : Manager.republish answers s₁ ts' = (s'', ts'', true)) :
    s''.live = s.live ∧ ts'' = ts := by
  induction ts generalizing s' ts' ts'' s₁ with
  | nil =>
    cases h
    cases hagain
    exact ⟨hs₁, rfl⟩
  | cons t rest ih =>
    have hrest := fun t' ht' => hswapped t' (mem_cons_of_mem _ ht')
    rw [rollbackPublished] at h
    split at h
    · cases h
    next s₂ rest' hroll =>
    split at h
    next hskip =>
      cases h
      -- a transition that was skipped has no handle and is skipped again
      have hnone : t.handle.isNone := by
        rcases hskip with hunpublished | hnone
        · by_contra hsome
          obtain ⟨h₀, ht₀⟩ := Option.ne_none_iff_exists'.mp (by simpa using hsome)
          rw [(hswapped t (by simp) h₀ ht₀).1] at hunpublished
          cases hunpublished
        · exact hnone
      rw [republish, if_pos (Or.inr hnone)] at hagain
      dsimp only at hagain
      generalize htail : republish answers s₁ rest' = tail at hagain
      obtain ⟨s₃, ts₃, flag⟩ := tail
      cases hagain
      obtain ⟨hlive, rfl⟩ := ih hrest hroll hs₁ htail
      exact ⟨hlive, rfl⟩
    next hswap =>
    obtain ⟨hpublished, hsome⟩ := not_or.mp hswap
    split at h
    · cases h
    cases h
    have hsome' : t.handle.isSome := by simpa [Option.isSome_iff_ne_none] using hsome
    obtain ⟨h₀, ht₀⟩ := isSome_iff_exists.mp hsome'
    have hback := (rollbackOne_some (s := s₂) ht₀).2
    rw [republish, if_neg (by rw [hback]; simp)] at hagain
    split at hagain
    · cases hagain
    dsimp only at hagain
    obtain ⟨hlive, htrans⟩ := publishOne_rollbackOne (hswapped t (by simp)) hsome' hs₁
    generalize htail : republish answers
      (s₁.publishOne (s₂.rollbackOne t).2).1 rest' = tail at hagain
    obtain ⟨s₃, ts₃, flag⟩ := tail
    cases hagain
    obtain ⟨hlive', rfl⟩ := ih hrest hroll hlive htail
    exact ⟨hlive', by rw [htrans]⟩

theorem rollbackPublished_republished (hswapped : ∀ t ∈ ts, Swapped t)
    (h : Manager.rollbackPublished answers s ts = .failed id true s' ts') :
    s'.live = s.live ∧ ts' = ts := by
  induction ts generalizing s' ts' with
  | nil => cases h
  | cons t rest ih =>
    have hrest := fun t' ht' => hswapped t' (mem_cons_of_mem _ ht')
    rw [rollbackPublished] at h
    split at h
    next id republished s₂ rest' hroll =>
      cases h
      obtain ⟨hlive, rfl⟩ := ih hrest hroll
      exact ⟨hlive, rfl⟩
    next s₂ rest' hroll =>
    split at h
    · cases h
    · split at h
      · dsimp only at h
        generalize hagain : republish answers s₂ rest' = again at h
        obtain ⟨s₃, ts₃, flag⟩ := again
        cases h
        obtain ⟨hlive, rfl⟩ := republish_rollbackPublished hrest hroll rfl hagain
        exact ⟨hlive, rfl⟩
      · cases h

/-! ## Drafting a policy -/

theorem findAggregates_kinds {P Q : String → Prop} {modules acc out}
    (h : Manager.findAggregates modules acc = .ok out)
    (hmtp : ∀ b ∈ modules, b.2.desc.kind = .mtp → P b.1)
    (hvision : ∀ b ∈ modules, b.2.desc.kind = .vision → Q b.1)
    (hacc : (∀ id ∈ acc.mtp, P id) ∧ ∀ id ∈ acc.multimodal, Q id) :
    (∀ id ∈ out.mtp, P id) ∧ ∀ id ∈ out.multimodal, Q id := by
  induction modules generalizing acc with
  | nil =>
    cases h
    exact hacc
  | cons b rest ih =>
    obtain ⟨hmtp, hmtps⟩ := forall_mem_cons.mp hmtp
    obtain ⟨hvision, hvisions⟩ := forall_mem_cons.mp hvision
    rw [findAggregates] at h
    split at h
    next hkind =>
      split at h
      · cases h
      · exact ih h hmtps hvisions ⟨by simpa using hmtp hkind, hacc.2⟩
    next hkind =>
      split at h
      · cases h
      · exact ih h hmtps hvisions ⟨hacc.1, by simpa using hvision hkind⟩
    · cases h

theorem preferred_enabled (h : Manager.findAggregates s.modules.toList {} = .ok aggregates)
    (hid : s.preferred target aggregates = some id) :
    Manager.targetEnabled target aggregates id = true := by
  cases target with
  | off => cases hid
  | shared => unfold targetEnabled; split <;> rfl
  | mtpOnly =>
    have hid : aggregates.mtp = some id := hid
    unfold targetEnabled
    rw [if_pos hid.symm]
    rfl
  | multimodalOnly =>
    have hid : aggregates.multimodal = some id := hid
    unfold targetEnabled
    split
    next hboth =>
      -- the two aggregates are of different kinds
      let found (kind : ModuleKind) (id : String) :=
        ∃ m, (id, m) ∈ s.modules.toList ∧ m.desc.kind = kind
      have hkinds := findAggregates_kinds (P := found .mtp) (Q := found .vision) h
        (fun b hb hk => ⟨b.2, hb, hk⟩) (fun b hb hk => ⟨b.2, hb, hk⟩) ⟨by simp, by simp⟩
      obtain ⟨m, hm, hkind⟩ := hkinds.1 id hboth.symm
      obtain ⟨m', hm', hkind'⟩ := hkinds.2 id hid
      have heq := (find?_eq_some.mpr hm).symm.trans (find?_eq_some.mpr hm')
      rw [some.inj heq, hkind'] at hkind
      cases hkind
    · rfl

theorem le_requiredBytes {m} (hm : s.core.modules.find? id = some m)
    (henabled : Manager.targetEnabled target aggregates id = true) :
    m.desc.bytes ≤ s.requiredBytes target aggregates m.desc.device := by
  obtain ⟨entry, hentry, rfl⟩ := find?_of_core hm
  have hmem := find?_eq_some.mp hentry
  have hfold : s.requiredBytes target aggregates entry.held.desc.device =
      ((s.modules.toList.filter fun b => targetEnabled target aggregates b.1 ∧
        b.2.desc.device = entry.desc.device).map (·.2.desc.bytes)).foldl max 0 := by
    simp only [foldl_map, foldl_filter, decide_eq_true_eq]
    rfl
  rw [hfold]
  exact Lib.le_foldl_max (.inl (mem_map_of_mem (a := (id, entry))
    (mem_filter.mpr ⟨hmem, by simp [henabled]⟩)))

theorem usableOf_targetBudgets {budgets} (h : s.targetBudgets target aggregates = some budgets)
    {device} (hdevice : s.budgets.contains device = true) :
    usableOf budgets device = s.requiredBytes target aggregates device := by
  unfold targetBudgets at h
  split at h
  · cases h
  cases h
  obtain ⟨budget, hbudget⟩ := isSome_iff_exists.mp hdevice
  unfold usableOf
  rw [find?_mapWithKey, hbudget]
  dsimp only [Option.map_some]
  split
  · omega
  · omega

theorem Core.weight_le_of_single {c : Core} {p : String → Held → Bool} {bound : Nat} {only : String}
    (h : ∀ id m, c.modules.find? id = some m → p id m = true → id = only ∧ m.desc.bytes ≤ bound) :
    c.weight p ≤ bound := by
  by_cases hany : ∃ m, c.modules.find? only = some m ∧ p only m = true
  · obtain ⟨m, hm, hp⟩ := hany
    calc c.weight p ≤ c.weight fun id _ => decide (id ∈ [only]) := by
          apply Core.weight_le_of_imp
          intro id m' hm' hp'
          simpa using (h id m' hm' hp').1
      _ = ([only].map fun _ => m.desc.bytes).sum := by
          apply Core.weight_mem _ (nodup_singleton only)
          intro id hid
          obtain rfl := mem_singleton.mp hid
          exact ⟨m, hm, rfl⟩
      _ ≤ bound := by simpa using (h only m hm hp).2
  · have hzero : c.weight p = 0 := by
      apply sumBy_eq_zero
      intro id m hm
      cases hp : p id m with
      | false => simp
      | true =>
        obtain ⟨rfl, -⟩ := h id m hm hp
        exact absurd ⟨m, hm, hp⟩ hany
    omega

theorem leavingFirst_perm (ts : List PolicyTransition) :
    (Manager.leavingFirst ts).Perm ts := by
  unfold leavingFirst
  have hsame : (fun t : PolicyTransition => decide ¬ t.targetResident = true) =
      fun t => !decide (t.targetResident = true) := by
    funext t
    simp
  rw [hsame]
  simpa using perm_append_comm.trans
    (filter_append_perm (fun t : PolicyTransition => t.targetResident) ts)

/-- Handles are given exactly to the transitions that change their module. -/
def HandleGiven (t t' : PolicyTransition) : Prop :=
  SameFlags t t' ∧ t'.published = t.published ∧
    (t'.handle = none → t.handle = none ∧ t.priorResident = t.targetResident) ∧
    ∀ h, t'.handle = some h → t.handle = some h ∨
      h.swapped = false ∧ h.side.isSome = t.targetResident

theorem prepareHandles_spec {start} (h : Manager.prepareHandles answers ts start = .ok out) :
    List.Forall₂ HandleGiven ts out.1 := by
  induction ts generalizing start out with
  | nil => cases h; exact .nil
  | cons t rest ih =>
    rw [prepareHandles] at h
    split at h
    next hsame =>
      obtain ⟨tail, htail, rfl⟩ := except_map_eq_ok.mp h
      exact .cons ⟨.refl t, rfl, fun hnone => ⟨hnone, hsame⟩, fun h hh => .inl hh⟩ (ih htail)
    · split at h
      · cases h
      · obtain ⟨tail, htail, rfl⟩ := except_map_eq_ok.mp h
        refine .cons ⟨⟨rfl, rfl, rfl, rfl, rfl⟩, rfl, fun hnone => (nomatch hnone), ?_⟩ (ih htail)
        intro h hh
        cases hh
        refine .inr ⟨rfl, ?_⟩
        cases t.targetResident <;> rfl

theorem draftPolicy_spec (h : s.draftPolicy target = .ok draft) :
    ∃ aggregates budgets, Manager.findAggregates s.modules.toList {} = .ok aggregates ∧
      s.targetBudgets target aggregates = some budgets ∧
      draft =
        { priorPolicy := s.policy
          targetPolicy := target
          generation := s.generation
          priorBudgets := s.budgets
          targetBudgets := budgets
          modules := Manager.leavingFirst (s.modules.toList.map fun b =>
            Manager.policyTransition target aggregates (s.preferred target aggregates) b.1 b.2) } := by
  obtain ⟨aggregates, haggregates, h⟩ := except_bind_eq_ok.mp h
  split at h
  · cases h
  split at h
  · cases h
  split at h
  · cases h
  next budgets hbudgets =>
  dsimp only at h
  split at h
  · cases h
  · cases h
    exact ⟨aggregates, budgets, haggregates, hbudgets, rfl⟩

theorem drafted {start : Owner} (hdraft : s.draftPolicy target = .ok draft)
    (hhandles : Manager.prepareHandles answers draft.modules start = .ok out) :
    Drafted s.core { draft with modules := out.1 } := by
  obtain ⟨aggregates, budgets, haggregates, hbudgets, rfl⟩ := draftPolicy_spec hdraft
  have hall := prepareHandles_spec hhandles
  have hperm := leavingFirst_perm (s.modules.toList.map fun b =>
    policyTransition target aggregates (s.preferred target aggregates) b.1 b.2)
  have hids : (out.1.map PolicyTransition.id).Perm s.modules.keys := by
    rw [← map_eq_map_of_forall₂ (fun t t' ht => ht.1.1.symm) hall]
    refine (hperm.map PolicyTransition.id).trans ?_
    rw [map_map]
    exact List.Perm.refl _
  have hnodup : (out.1.map PolicyTransition.id).Nodup := hids.nodup_iff.mpr s.modules.nodup_keys
  -- every transition belongs to a registered module
  have hfrom : ∀ tr ∈ out.1, ∃ entry, s.modules.find? tr.id = some entry ∧
      HandleGiven (policyTransition target aggregates (s.preferred target aggregates)
        tr.id entry) tr := by
    intro tr htr
    obtain ⟨t, ht, hgiven⟩ := exists_of_forall₂_right hall htr
    obtain ⟨b, hb, rfl⟩ := mem_map.mp (hperm.mem_iff.mp ht)
    have hid : tr.id = b.1 := hgiven.1.1
    rw [hid]
    exact ⟨b.2, find?_eq_some.mpr hb, hgiven⟩
  refine ⟨rfl, rfl, rfl, rfl, hnodup, fun id => ?_, fun tr htr m hm => ?_, fun tr htr => ?_,
    fun hbudgeted device => ?_⟩
  · rw [hids.mem_iff, OrdMap.mem_keys]
    constructor
    · rintro ⟨m, hm⟩
      obtain ⟨entry, hentry, -⟩ := find?_of_core hm
      exact isSome_iff_exists.mpr ⟨entry, hentry⟩
    · intro hmem
      obtain ⟨entry, hentry⟩ := isSome_iff_exists.mp hmem
      exact ⟨entry.held, core_find? hentry⟩
  · obtain ⟨entry, hentry, hgiven⟩ := hfrom tr htr
    obtain rfl := some.inj ((core_find? hentry).symm.trans hm)
    exact ⟨hgiven.1.2.1, hgiven.1.2.2.1⟩
  · obtain ⟨entry, hentry, hflags, hpublished, hnone, hsome⟩ := hfrom tr htr
    refine ⟨hpublished, fun hh => ?_, fun h hh => ?_⟩
    · rw [hflags.2.2.1, hflags.2.2.2.2]
      exact (hnone hh).2
    · rcases hsome h hh with hold | ⟨hswapped, hside⟩
      · cases hold
      · exact ⟨hswapped, hflags.2.2.2.2 ▸ hside⟩
  · -- the only resident module under the policy is the preferred one
    have hview : ((s.core.setFlags s.core.live out.1 PolicyTransition.targetEnabled
        PolicyTransition.targetResident).setBudgets budgets target).view.residentBytes device =
        s.core.weight fun id m => flagAfter PolicyTransition.id PolicyTransition.targetResident
          out.1 id m.resident && decide (m.desc.device = device) := by
      rw [Core.residentBytes_view]
      unfold Core.weight Core.setBudgets Core.setFlags Core.update
      rw [sumBy_mapWithKey]
    have hflag : ∀ id m, s.core.modules.find? id = some m →
        flagAfter PolicyTransition.id PolicyTransition.targetResident out.1 id m.resident =
          decide (s.preferred target aggregates = some id) := by
      intro id m hm
      obtain ⟨entry, hentry, -⟩ := find?_of_core hm
      have hmem : id ∈ out.1.map PolicyTransition.id := by
        rw [hids.mem_iff, OrdMap.mem_keys]
        exact isSome_iff_exists.mpr ⟨entry, hentry⟩
      obtain ⟨tr, htr, rfl⟩ := mem_map.mp hmem
      rw [flagAfter_of_mem hnodup htr]
      obtain ⟨_, _, hgiven⟩ := hfrom tr htr
      exact hgiven.1.2.2.2.2
    have husable : ∀ m : Held, s.core.budgets.contains m.desc.device = true →
        usableOf (s.budgets.mapWithKey fun device budget =>
          (budgets.find? device).getD budget) m.desc.device =
          s.requiredBytes target aggregates m.desc.device := by
      intro m hcontains
      rw [← usableOf_targetBudgets hbudgets hcontains]
      obtain ⟨budget, hbudget⟩ := isSome_iff_exists.mp hcontains
      unfold usableOf
      rw [find?_mapWithKey, show s.budgets.find? m.desc.device = some budget from hbudget]
      cases hfound : budgets.find? m.desc.device with
      | some found => rfl
      | none =>
        -- the target budgets are those of the same devices
        unfold targetBudgets at hbudgets
        split at hbudgets
        · cases hbudgets
        · cases hbudgets
          rw [find?_mapWithKey,
            show s.budgets.find? m.desc.device = some budget from hbudget] at hfound
          cases hfound
    rw [hview]
    cases hpreferred : s.preferred target aggregates with
    | none =>
      have hzero : s.core.weight (fun id m => flagAfter PolicyTransition.id
          PolicyTransition.targetResident out.1 id m.resident &&
            decide (m.desc.device = device)) = 0 := by
        apply sumBy_eq_zero
        intro id m hm
        simp [hflag id m hm, hpreferred]
      rw [hzero]
      exact Nat.zero_le _
    | some only =>
      refine @Core.weight_le_of_single s.core _ _ only fun id m hm hp => ?_
      simp only [hflag id m hm, hpreferred, Bool.and_eq_true, decide_eq_true_eq,
        some.injEq] at hp
      obtain ⟨rfl, rfl⟩ := hp
      refine ⟨rfl, ?_⟩
      refine Nat.le_trans (le_requiredBytes hm (preferred_enabled haggregates hpreferred)) ?_
      exact Nat.le_of_eq (husable m (hbudgeted _ m hm)).symm

theorem preparePolicy_steps (s : Manager) (answers : Answers) (target : TransientPolicy) :
    CoreStep s.core (.preparePolicy target) (s.preparePolicy answers target).1.core := by
  unfold preparePolicy
  dsimp only
  split
  · exact .quiet _ _
  next hclosed =>
  split
  · exact .quiet _ _
  next hidle =>
  obtain ⟨hidle, hepoch⟩ := not_or.mp hidle
  split
  · exact .quiet _ _
  · exact .quiet _ _
  split
  · exact .quiet _ _
  next draft hdraft =>
  split
  · exact .quiet _ _
  split
  · exact .quiet _ _
  next modules next hhandles =>
  exact .prepares s.core target _ (Option.not_isSome_iff_eq_none.mp hclosed)
    (not_not.mp hidle) (Option.not_isSome_iff_eq_none.mp hepoch)
    (drafted (s := s.countTransaction) hdraft hhandles)

/-! ## Publishing, rolling back and closing -/

theorem openTransaction_spec {state t} (h : s.openTransaction arg state = some t) :
    arg = .own ∧ s.transaction = some t ∧ t.poisoned = false ∧ t.state = state := by
  unfold openTransaction at h
  split at h
  next t' ht' =>
    split at h
    next hin =>
      cases h
      exact ⟨rfl, ht', hin.1, hin.2⟩
    · cases h
  · cases h

theorem core_setTransaction (s : Manager) (t : Option PolicyTransaction) :
    ({ s with transaction := t } : Manager).core = { s.core with transaction := t } := rfl

theorem core_withBudgets (s : Manager) (budgets : OrdMap Int DeviceBudget)
    (policy : TransientPolicy) (t : Option PolicyTransaction) :
    { s.withBudgets budgets with policy := policy, transaction := t }.core =
      { s.core.setBudgets budgets policy with transaction := t } := rfl

theorem core_failedPublication {t : PolicyTransaction} {restored any : Bool}
    (hpub : Manager.publishPrepared answers s t.modules = .failed id restored any s' modules) :
    ({ (if any then s'.countRollback else s') with
      transaction := some { t with modules := modules, poisoned := !restored } } : Manager).core =
      { s.core with
        live := s'.live
        transaction := some { t with modules := modules, poisoned := !restored } } := by
  have hlive := publishPrepared_liveOnly answers t.modules s
  rw [hpub] at hlive
  have hlive : s'.core = { s.core with live := s'.live } := hlive
  have hcount : (if any then s'.countRollback else s').core = s'.core := by
    cases any <;> rfl
  rw [core_setTransaction, hcount, hlive]

theorem core_restoredPublication {t : PolicyTransaction} {any : Bool} (hordered : s.core.Ordered)
    (ht : s.transaction = some t) (hsane : t.poisoned = false) (hstate : t.state = .prepared)
    (hpub : Manager.publishPrepared answers s t.modules = .failed id true any s' modules) :
    ({ (if any then s'.countRollback else s') with
      transaction := some { t with modules := modules, poisoned := !true } } : Manager).core =
      s.core := by
  obtain ⟨hsame, rfl⟩ := publishPrepared_restored (hordered.prepared t ht hsane hstate) hpub
  have hpoisoned : ({ t with poisoned := !true } : PolicyTransaction) = t := by
    rw [show (!true) = t.poisoned from hsane.symm]
  rw [core_failedPublication hpub]
  change ({ s.core with
    live := s'.live, transaction := some { t with poisoned := !true } } : Core) = s.core
  rw [hpoisoned, hsame, ← ht]
  rfl

theorem publishPolicy_steps (hordered : s.core.Ordered) (answers : Answers)
    (arg : Manager.TransactionArg) :
    CoreStep s.core (.publishPolicy arg) (s.publishPolicy answers arg).1.core := by
  unfold publishPolicy
  split
  · exact .quiet _ _
  next t hopen =>
  obtain ⟨-, ht, hsane, hstate⟩ := openTransaction_spec hopen
  have hready : ∀ tr ∈ t.modules, Ready tr := hordered.prepared t ht hsane hstate
  split
  · exact .quiet _ _
  split
  · exact .quiet _ _
  split
  next id restored any s' modules hpub =>
    change CoreStep s.core _ (core { (if any then s'.countRollback else s') with
      transaction := some { t with modules := modules, poisoned := !restored } })
    cases restored with
    | false =>
      rw [core_failedPublication hpub]
      exact .poisons s.core _ t modules s'.live rfl ht
    | true =>
      rw [core_restoredPublication hordered ht hsane hstate hpub]
      exact .quiet _ _
  next s' modules hpub =>
  have hlive := publishPrepared_liveOnly answers t.modules s
  rw [hpub] at hlive
  have hlive : s'.core = { s.core with live := s'.live } := hlive
  obtain ⟨hall, hswapped, hundo, -, hmoved⟩ := publishPrepared_published hready hpub
  dsimp only
  rw [core_withBudgets, core_flags, hlive]
  exact .publishes s.core arg t modules s'.live ht hsane hstate
    fun hnodup => ⟨hall, hswapped, hundo, fun tr htr => (hmoved hnodup tr htr).1,
      fun tr htr => (hmoved hnodup tr htr).2⟩

theorem rollbackPolicy_steps (hordered : s.core.Ordered) (answers : Answers)
    (arg : Manager.TransactionArg) {op} (hop : op.onPolicy = true) :
    CoreStep s.core op (s.rollbackPolicy answers arg).1.core := by
  unfold rollbackPolicy
  split
  · exact .quiet _ _
  next t hopen =>
  obtain ⟨-, ht, hsane, hstate⟩ := openTransaction_spec hopen
  have hswapped : ∀ tr ∈ t.modules, Swapped tr := hordered.published t ht hsane hstate
  have hlive := rollbackPublished_liveOnly answers t.modules s
  split
  next id republished s' modules hroll =>
    rw [hroll] at hlive
    have hlive : s'.core = { s.core with live := s'.live } := hlive
    change CoreStep s.core _ (core { s' with
      transaction := some { t with modules := modules, poisoned := !republished } })
    rw [core_setTransaction s', hlive]
    cases republished with
    | false => exact .poisons s.core _ t modules s'.live hop ht
    | true =>
      obtain ⟨hsame, rfl⟩ := rollbackPublished_republished hswapped hroll
      have hpoisoned : ({ t with poisoned := !true } : PolicyTransaction) = t := by
        rw [show (!true) = t.poisoned from hsane.symm]
      change CoreStep s.core _ { s.core with
        live := s'.live, transaction := some { t with poisoned := !true } }
      rw [hpoisoned, hsame, ← ht]
      exact .quiet _ _
  next s' modules hroll =>
  rw [hroll] at hlive
  have hlive : s'.core = { s.core with live := s'.live } := hlive
  obtain ⟨hundo, hall⟩ := rollbackPublished_rolledBack hroll
  have hflags : s'.core.setFlags s'.live modules PolicyTransition.priorEnabled
      PolicyTransition.priorResident = s.core.setFlags (undoAll s.core.live t.handles) t.modules
        PolicyTransition.priorEnabled PolicyTransition.priorResident := by
    rw [hlive, hundo]
    apply Core.update_congr
    intro k m _
    rw [flagAfter_eq_of_forall₂ (hall.imp fun t t' ht => ⟨ht.1, ht.2.1⟩),
      flagAfter_eq_of_forall₂ (hall.imp fun t t' ht => ⟨ht.1, ht.2.2.1⟩)]
  change CoreStep s.core op (core { withBudgets _ _ with
    policy := _, transaction := _ })
  rw [core_withBudgets, core_flags]
  change CoreStep s.core op { (s'.core.setFlags s'.live modules PolicyTransition.priorEnabled
    PolicyTransition.priorResident).setBudgets t.priorBudgets t.priorPolicy with
      transaction := some { t with modules := modules, state := .rolledBack } }
  rw [hflags]
  exact .rollsBack s.core op t modules hop ht hsane hstate

theorem finalizePolicy_steps (s : Manager) (answers : Answers) (arg : Manager.TransactionArg) :
    CoreStep s.core (.finalizePolicy arg) (s.finalizePolicy answers arg).1.core := by
  unfold finalizePolicy
  split
  · exact .quiet _ _
  next t hopen =>
  obtain ⟨-, ht, hsane, hstate⟩ := openTransaction_spec hopen
  split
  · exact .poisons s.core _ t t.modules s.live rfl ht
  · exact .finalizes s.core arg t ht hsane hstate

theorem rollbackPolicy_accepted {reply} (h : s.rollbackPolicy answers arg = (s', reply))
    (hreply : ∀ message, reply ≠ .refused message) :
    ∃ t, s'.transaction = some t ∧ t.poisoned = false ∧ t.state = .rolledBack := by
  unfold rollbackPolicy at h
  split at h
  · cases h
    exact absurd rfl (hreply _)
  next t hopen =>
  obtain ⟨-, -, hsane, -⟩ := openTransaction_spec hopen
  split at h
  · cases h
    exact absurd rfl (hreply _)
  · cases h
    exact ⟨_, rfl, hsane, rfl⟩

theorem freePolicy_steps (hordered : s.core.Ordered) (answers : Answers)
    (arg : Manager.TransactionArg) : ∃ c, CoreStep s.core (.freePolicy arg) c ∧
      CoreStep c (.freePolicy arg) (s.freePolicy answers arg).1.core := by
  unfold freePolicy
  split
  · exact ⟨_, .quiet _ _, .quiet _ _⟩
  · exact ⟨_, .quiet _ _, .quiet _ _⟩
  split
  · exact ⟨_, .quiet _ _, .quiet _ _⟩
  next t ht =>
  split
  · exact ⟨_, .quiet _ _, .quiet _ _⟩
  next hsane =>
  split
  next hstate =>
    have hroll : CoreStep s.core (.freePolicy .own) (s.rollbackPolicy answers .own).1.core :=
      rollbackPolicy_steps hordered answers .own rfl
    split
    next s' message heq =>
      rw [heq] at hroll
      exact ⟨_, hroll, .quiet _ _⟩
    next s' reply hreply heq =>
    rw [heq] at hroll
    obtain ⟨t', ht', hsane', hstate'⟩ := rollbackPolicy_accepted heq fun message hrefused =>
      hreply message hrefused
    refine ⟨_, hroll, .frees s'.core .own t' ht' hsane' ?_⟩
    rw [hstate']
    exact fun hne => nomatch hne
  next hstate =>
    exact ⟨_, .quiet _ _, .frees s.core .own t ht (Bool.not_eq_true _ ▸ hsane) hstate⟩

/-- **Every call of the manager is a step of the abstract machine**, or two where a
published transaction is freed. -/
theorem step_refines {label} (hordered : s.core.Ordered) (h : Step s label s') :
    CoreStep s.core label.1.op s'.core ∨
      ∃ arg c, label.1.op = .freePolicy arg ∧ CoreStep s.core (.freePolicy arg) c ∧
        CoreStep c (.freePolicy arg) s'.core := by
  obtain ⟨⟨op, answers⟩, reply⟩ := label
  unfold Step next at h
  cases op with
  | registerModule desc =>
    have hs' : (s.registerModule desc).1 = s' := congrArg Prod.fst (some.inj h)
    exact .inl (hs' ▸ registerModule_steps s desc)
  | acquire requested restorePrior => exact .inl (acquire_steps h)
  | release lease success => exact .inl (release_steps h)
  | preparePolicy target =>
    have hs' : (s.preparePolicy answers target).1 = s' := congrArg Prod.fst (some.inj h)
    exact .inl (hs' ▸ preparePolicy_steps s answers target)
  | publishPolicy arg =>
    have hs' : (s.publishPolicy answers arg).1 = s' := congrArg Prod.fst (some.inj h)
    exact .inl (hs' ▸ publishPolicy_steps hordered answers arg)
  | rollbackPolicy arg =>
    have hs' : (s.rollbackPolicy answers arg).1 = s' := congrArg Prod.fst (some.inj h)
    exact .inl (hs' ▸ rollbackPolicy_steps hordered answers arg rfl)
  | finalizePolicy arg =>
    have hs' : (s.finalizePolicy answers arg).1 = s' := congrArg Prod.fst (some.inj h)
    exact .inl (hs' ▸ finalizePolicy_steps s answers arg)
  | freePolicy arg =>
    have hs' : (s.freePolicy answers arg).1 = s' := congrArg Prod.fst (some.inj h)
    obtain ⟨c, hfirst, hsecond⟩ := freePolicy_steps hordered answers arg
    exact .inr ⟨arg, c, rfl, hfirst, hs' ▸ hsecond⟩

end ExpertStreaming.Transient
