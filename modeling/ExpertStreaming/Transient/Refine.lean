import ExpertStreaming.Transient.Admission

/-! # The manager refines the abstract machine

Every call of the manager is at most two steps of the abstract machine. The owners of a
prepared change are exchanged one by one; that all of them are exchanged, or none, is
what the lemmas on publication and rollback say.
-/
namespace ExpertStreaming.Transient

open Lib Planner Manager OrdMap Option Transient.Core

/-! ## Flags -/

variable {τ : Type} {s s' : Manager} {requested : List String} {a : Manager.Admission}
  {answers : Answers} {ts ts' : List ResidencyTransition} {live live' : String → Option Owner}
  {restorePrior : Bool} {reply : Reply}

theorem flagAfter_append (key : τ → String) (flag : τ → Bool) (ts ts' : List τ)
    (id : String) (now : Bool) : flagAfter key flag (ts ++ ts') id now =
      flagAfter key flag ts' id (flagAfter key flag ts id now) := List.foldl_append

variable {key : τ → String} {flag : τ → Bool}

theorem flagAfter_const {ts b} (h : ∀ t ∈ ts, flag t = b) (id : String) (now : Bool) :
    flagAfter key flag ts id now = if id ∈ ts.map key then b else now := by
  induction ts generalizing now with
  | nil => simp [flagAfter]
  | cons t rest ih =>
    have hrest := ih (fun t' ht' => h t' (List.mem_cons_of_mem _ ht'))
    rw [flagAfter, List.foldl_cons]
    refine (hrest _).trans ?_
    by_cases hkey : key t = id
    · simp [hkey, h t (by simp)]
    · simp [hkey, Ne.symm hkey]

theorem flagAfter_of_not_mem {ts id} (h : id ∉ ts.map key) (now : Bool) :
    flagAfter key flag ts id now = now := by
  induction ts generalizing now with
  | nil => rfl
  | cons t rest ih =>
    simp only [List.map_cons, List.mem_cons, not_or] at h
    rw [flagAfter, List.foldl_cons, if_neg (Ne.symm h.1)]
    exact ih h.2 now

theorem flagAfter_of_mem {ts t} (hnodup : (ts.map key).Nodup) (ht : t ∈ ts) (now : Bool) :
    flagAfter key flag ts (key t) now = flag t := by
  induction ts generalizing now with
  | nil => cases ht
  | cons t' rest ih =>
    obtain ⟨hnew, hnodup⟩ := List.nodup_cons.mp hnodup
    rw [flagAfter, List.foldl_cons]
    rcases List.mem_cons.mp ht with rfl | ht
    · rw [if_pos rfl]
      exact flagAfter_of_not_mem hnew _
    · exact ih hnodup ht _

theorem flagAfter_eq_of_forall₂ {ts ts'}
    (h : List.Forall₂ (fun t t' => key t' = key t ∧ flag t' = flag t) ts ts') (id : String)
    (now : Bool) : flagAfter key flag ts' id now = flagAfter key flag ts id now := by
  induction h generalizing now with
  | nil => rfl
  | cons hone _ ih =>
    rw [flagAfter, flagAfter, List.foldl_cons, List.foldl_cons, hone.1, hone.2]
    exact ih _

/-! ## Admission -/

/-- An admitted request: what was checked, the room it leaves, and how it meets an open
epoch. -/
structure Admits (s : Manager) (a : Manager.Admission) : Prop where
  admitted : Admitted s.core a.ids a.evicted a.activated
  fits : s.core.totalBytes ≤ u64Max → s.core.view.Fits → ∀ live,
    (s.core.move live (residentAfter a.evicted a.activated)).view.Fits
  alone : s.epoch = none → a.joins = false
  beside : ∀ e, s.epoch = some e → a.evicted = [] ∧ a.activated = [] ∧
    a.joins = a.ids.any fun id => e.activated.contains id

theorem isResident_eq {id m} (h : s.core.modules.find? id = some m) :
    s.isResident id = m.resident := by
  obtain ⟨entry, hentry, rfl⟩ := find?_of_core h
  rw [isResident, hentry]
  rfl

theorem Core.residentBytes_move (c : Core) (live : String → Option Owner)
    (resident : String → Bool → Bool) (device : Int) :
    (c.move live resident).view.residentBytes device =
      c.weight fun id m => resident id m.resident && decide (m.desc.device = device) := by
  rw [residentBytes_view]
  unfold weight move update
  rw [sumBy_mapWithKey]

theorem fits_of_collected {request : Manager.Request} {evicted : List String}
    (hcollected : Collected s.core request)
    (hevict : s.evictAll request.ids request.needed.toList = .ok evicted)
    (htotal : s.core.totalBytes ≤ u64Max) (hfits : s.core.view.Fits)
    (live : String → Option Owner) :
    (s.core.move live (residentAfter evicted
      (request.ids.keys.filter fun id => ¬ s.isResident id))).view.Fits := by
  intro device
  rw [residentBytes_move]
  obtain ⟨-, -, hroom⟩ := evictAll_spec hevict request.needed.nodup_keys
  have hneed := hcollected.needed htotal
  -- a needed amount and the resident bytes of its device are bytes of different modules
  have hbound : ∀ p ∈ request.needed.toList,
      s.core.weight (residentOn p.1) + p.2 ≤ u64Max := by
    intro p hp
    have hp' := hneed p.1
    rw [find?_eq_some.mpr hp, getD_some] at hp'
    have hle := s.core.weight_le_total fun id m => decide (m.desc.device = p.1)
    have hsplit := s.core.weight_split (fun id m => decide (m.desc.device = p.1))
      fun _ m => m.resident
    have hres : s.core.weight (fun id m => decide (m.desc.device = p.1) && m.resident) =
        s.core.weight (residentOn p.1) := weight_congr fun _ _ _ => Bool.and_comm _ _
    have hnot : p.2 ≤ s.core.weight fun id m => decide (m.desc.device = p.1) && !m.resident := by
      rw [hp']
      apply weight_le_of_imp
      intro id m _ hid
      simp only [Bool.and_eq_true] at hid ⊢
      exact ⟨hid.2, hid.1.2⟩
    omega
  have hsplit := s.core.weight_split (fun id m => residentAfter evicted
    (request.ids.keys.filter fun id => ¬ s.isResident id) id m.resident &&
      decide (m.desc.device = device)) fun id m => request.ids.contains id && !m.resident
  have hcome : s.core.weight (fun id m => (residentAfter evicted
      (request.ids.keys.filter fun id => ¬ s.isResident id) id m.resident &&
        decide (m.desc.device = device)) && (request.ids.contains id && !m.resident)) ≤
      (request.needed.find? device).getD 0 := by
    rw [hneed device]
    apply weight_le_of_imp
    intro id m _ hid
    simp only [Bool.and_eq_true] at hid ⊢
    exact ⟨hid.2, hid.1.2⟩
  have hstay : s.core.weight (fun id m => (residentAfter evicted
      (request.ids.keys.filter fun id => ¬ s.isResident id) id m.resident &&
        decide (m.desc.device = device)) && !(request.ids.contains id && !m.resident)) ≤
      s.core.weight fun id m => residentOn device id m && !decide (id ∈ evicted) := by
    apply weight_le_of_imp
    intro id m hm hid
    have hflag := isResident_eq hm
    simp only [residentAfter, List.mem_filter, mem_keys, hflag] at hid
    cases hresident : m.resident with
    | false =>
      -- a module that was not resident is one that was asked for
      simp only [hresident, Bool.false_and, Bool.false_or, Bool.and_eq_true, decide_eq_true_eq] at hid
      simp [hid.1.1.1] at hid
    | true => simpa [hresident, and_comm] using hid
  have husable : (s.core.move live (residentAfter evicted
      (request.ids.keys.filter fun id => ¬ s.isResident id))).view.budgets = s.budgets := rfl
  rw [husable]
  cases hentry : request.needed.find? device with
  | some need =>
    have := hroom htotal hbound (device, need) (find?_eq_some.mp hentry)
    rw [hentry, getD_some] at hcome
    have husable' : s.usableBytes device = usableOf s.budgets device := rfl
    dsimp only at this
    omega
  | none =>
    have hold := hfits device
    rw [residentBytes_view] at hold
    have hless : s.core.weight (fun id m => residentOn device id m && !decide (id ∈ evicted)) ≤
        s.core.weight (residentOn device) := by
      apply weight_le_of_imp
      intro id m _ hid
      exact (Bool.and_eq_true _ _ ▸ hid).1
    rw [hentry, getD_none] at hcome
    have hsame : s.core.weight (residentOn device) ≤ usableOf s.budgets device := hold
    omega

theorem admit_spec (h : s.admitRequest requested = .ok a) : Admits s a := by
  unfold admitRequest at h
  split at h
  · cases h
  next hclosed =>
  split at h
  · cases h
  next request hrequest =>
  split at h
  · cases h
  next evicted hevict =>
  have hcollected := collect_collected hrequest (collected_empty s.core)
  obtain ⟨hnodup, hevictable, -⟩ := evictAll_spec hevict request.needed.nodup_keys
  have hfits := fits_of_collected hcollected hevict
  have hadmitted : Admitted s.core request.ids.keys evicted
      (request.ids.keys.filter fun id => ¬ s.isResident id) := by
    refine ⟨not_isSome_iff_eq_none.mp hclosed, request.ids.nodup_keys,
      fun id hid => hcollected.enabled id (mem_keys.mp hid), hnodup, fun id hid => ?_,
      request.ids.nodup_keys.filter _, fun id => ?_⟩
    · obtain ⟨hnot, m, hm, hresident, hpins, -⟩ := hevictable id hid
      refine ⟨fun hmem => ?_, m, hm, hresident, hpins⟩
      rw [mem_keys.mp hmem] at hnot
      cases hnot
    · rw [List.mem_filter]
      constructor
      · rintro ⟨hmem, hnot⟩
        obtain ⟨m, hm, -⟩ := hcollected.enabled id (mem_keys.mp hmem)
        refine ⟨hmem, m, hm, ?_⟩
        rw [← isResident_eq hm]
        simpa using hnot
      · rintro ⟨hmem, m, hm, hresident⟩
        refine ⟨hmem, ?_⟩
        rw [isResident_eq hm, hresident]
        rfl
  dsimp only at h
  split at h
  next hepoch =>
    cases h
    exact ⟨hadmitted, hfits, fun _ => rfl, fun e he => by rw [hepoch] at he; cases he⟩
  next e hepoch =>
  split at h
  · cases h
  next hnothing =>
  cases h
  have hnil := List.append_eq_nil_iff.mp (not_not.mp hnothing)
  refine ⟨hadmitted, hfits, fun hnone => ?_, fun e' he' => ?_⟩
  · rw [hepoch] at hnone
    cases hnone
  · rw [hepoch] at he'
    cases he'
    exact ⟨hnil.1, hnil.2, rfl⟩

/-! ## The owners of an epoch -/

theorem prepareOwners_spec {target ids start out}
    (h : s.prepareOwners answers target ids start = .ok out) :
    out.1.map ResidencyTransition.id = ids ∧ ∀ t ∈ out.1, t.targetResident = target ∧
      t.handle.swapped = false ∧ t.handle.side.isSome = target ∧
      ∃ m, s.core.modules.find? t.id = some m ∧ t.priorResident = m.resident := by
  induction ids generalizing start out with
  | nil =>
    cases h
    exact ⟨rfl, by simp⟩
  | cons id rest ih =>
    rw [prepareOwners] at h
    split at h
    · cases h
    next m hm =>
    split at h
    · cases h
    split at h
    · cases h
    obtain ⟨tail, htail, rfl⟩ := except_map_eq_ok.mp h
    obtain ⟨hids, hall⟩ := ih htail
    refine ⟨by simp [hids], fun t ht => ?_⟩
    rcases List.mem_cons.mp ht with rfl | ht
    · refine ⟨rfl, rfl, ?_, m.held, core_find? hm, rfl⟩
      cases target <;> rfl
    · exact hall t ht

def Exchanged (t t' : ResidencyTransition) : Prop :=
  t'.id = t.id ∧ t'.priorResident = t.priorResident ∧ t'.targetResident = t.targetResident ∧
    t'.published = true ∧ t'.handle.swapped = true

theorem publishOwners_published (hfresh : ∀ t ∈ ts, t.handle.swapped = false)
    (h : Manager.publishOwners answers live ts = .published live' ts') :
    List.Forall₂ Exchanged ts ts' ∧
    undoAll live' (ResidencyTransaction.handles ⟨ts', true⟩) = live ∧
    (∀ id ∉ ts.map ResidencyTransition.id, live' id = live id) ∧
    ((ts.map ResidencyTransition.id).Nodup → ∀ t ∈ ts, live' t.id = t.handle.side) := by
  induction ts generalizing live ts' with
  | nil =>
    cases h
    exact ⟨.nil, rfl, fun _ _ => rfl, by simp⟩
  | cons t rest ih =>
    have hone := hfresh t (by simp)
    have hrest := fun t' ht' => hfresh t' (List.mem_cons_of_mem _ ht')
    rw [publishOwners] at h
    split at h
    · cases h
    dsimp only at h
    split at h
    next live₂ rest' hpub =>
      cases h
      obtain ⟨hall, hundo, hother, hmoved⟩ := ih hrest hpub
      have hswap := Handle.publish_eq hone live t.id
      refine ⟨.cons ⟨rfl, rfl, rfl, rfl, by rw [hswap]⟩ hall, ?_, ?_, ?_⟩
      · have hback := Handle.rollback_publish hone live t.id
        rw [ResidencyTransaction.handles, List.filter_cons_of_pos rfl, List.map_cons, undoAll_cons]
        rw [ResidencyTransaction.handles] at hundo
        rw [hundo, hback]
      · intro id hid
        simp only [List.map_cons, List.mem_cons, not_or] at hid
        rw [hother id hid.2, hswap]
        exact Function.update_of_ne hid.1 _ _
      · intro hnodup t' ht'
        obtain ⟨hnew, hnodup⟩ := List.nodup_cons.mp hnodup
        rcases List.mem_cons.mp ht' with rfl | ht'
        · rw [hother _ hnew, hswap]
          exact Function.update_self _ _ _
        · exact hmoved hnodup t' ht'
    · split at h
      · cases h
      · cases h
    · cases h

theorem publishOwners_failed {message} (hfresh : ∀ t ∈ ts, t.handle.swapped = false)
    (h : Manager.publishOwners answers live ts = .failed message live' ts') : live' = live := by
  induction ts generalizing live live' ts' with
  | nil => cases h
  | cons t rest ih =>
    have hone := hfresh t (by simp)
    rw [publishOwners] at h
    split at h
    · cases h; rfl
    dsimp only at h
    split at h
    · cases h
    next message live₂ rest' hfail =>
      split at h
      · cases h
      · cases h
        rw [ih (fun t' ht' => hfresh t' (List.mem_cons_of_mem _ ht')) hfail]
        exact congrArg Prod.fst (Handle.rollback_publish hone live t.id)
    · cases h

theorem publishOwners_not_aborted (hkept : answers.Kept)
    (ts : List ResidencyTransition) (live : String → Option Owner) :
    Manager.publishOwners answers live ts ≠ .aborted := by
  induction ts generalizing live with
  | nil => exact fun h => nomatch h
  | cons t rest ih =>
    rw [publishOwners]
    split
    · exact fun h => nomatch h
    dsimp only
    split
    · exact fun h => nomatch h
    · rw [hkept.rollback]
      exact fun h => nomatch h
    next habort => exact absurd habort (ih _)

theorem rollbackOwners_spec {out} (h : Manager.rollbackOwners answers live ts = some out)
    (published : Bool) :
    out.1 = undoAll live (ResidencyTransaction.handles ⟨ts, published⟩) ∧
    List.Forall₂ (fun t t' => t'.id = t.id ∧ t'.priorResident = t.priorResident) ts out.2 := by
  induction ts generalizing out with
  | nil =>
    cases h
    exact ⟨rfl, .nil⟩
  | cons t rest ih =>
    rw [rollbackOwners] at h
    split at h
    · cases h
    next live₂ rest' hrest =>
    obtain ⟨hlive, hall⟩ := ih hrest
    dsimp only at hlive hall
    split at h
    next hpublished =>
      split at h
      · cases h
      · cases h
        refine ⟨?_, .cons ⟨rfl, rfl⟩ hall⟩
        rw [ResidencyTransaction.handles, List.filter_cons_of_pos hpublished, List.map_cons,
          undoAll_cons, hlive]
        rfl
    next hpublished =>
    cases h
    refine ⟨?_, .cons ⟨rfl, rfl⟩ hall⟩
    rw [ResidencyTransaction.handles, List.filter_cons_of_neg hpublished, hlive]
    rfl

theorem rollbackOwners_isSome (hkept : answers.Kept)
    (ts : List ResidencyTransition) (live : String → Option Owner) :
    (Manager.rollbackOwners answers live ts).isSome := by
  induction ts with
  | nil => rfl
  | cons t rest ih =>
    obtain ⟨out, hout⟩ := isSome_iff_exists.mp ih
    rw [rollbackOwners, hout]
    dsimp only
    split
    · rw [hkept.rollback]
      rfl
    · rfl

/-! ## Acquisition -/

theorem freshLeaseId_free {id} (h : s.freshLeaseId = some id) :
    s.leases.find? id = none := by
  have hfree := List.find?_some h
  simp only [contains] at hfree
  exact not_isSome_iff_eq_none.mp (of_decide_eq_true hfree).2

structure OwnersPrepared (c : Core) (evicted activated : List String)
    (owners : ResidencyTransaction) : Prop where
  unpublished : owners.published = false
  ids : owners.modules.map ResidencyTransition.id = evicted ++ activated
  fresh : ∀ t ∈ owners.modules, t.handle.swapped = false
  prior : ∀ t ∈ owners.modules, ∃ m, c.modules.find? t.id = some m ∧ t.priorResident = m.resident
  side : ∀ t ∈ owners.modules, t.handle.side.isSome = t.targetResident
  target : ∀ id now, flagAfter ResidencyTransition.id ResidencyTransition.targetResident
    owners.modules id now = residentAfter evicted activated id now
  loads : ∀ t ∈ owners.modules, t.targetResident = true → t.id ∈ activated
  leaves : ∀ t ∈ owners.modules, t.targetResident = false → t.id ∈ evicted

theorem prepareResidency_spec {evicted activated out}
    (h : s.prepareResidency answers evicted activated = .ok out) :
    OwnersPrepared s.core evicted activated out.1 := by
  obtain ⟨leaving, hleaving, h⟩ := except_bind_eq_ok.mp h
  obtain ⟨loading, hloading, rfl⟩ := except_map_eq_ok.mp h
  obtain ⟨hleaving_ids, hleaving⟩ := prepareOwners_spec hleaving
  obtain ⟨hloading_ids, hloading⟩ := prepareOwners_spec hloading
  have hmem : ∀ t ∈ leaving.1 ++ loading.1, t ∈ leaving.1 ∨ t ∈ loading.1 :=
    fun t ht => List.mem_append.mp ht
  refine ⟨rfl, by simp [hleaving_ids, hloading_ids], fun t ht => ?_, fun t ht => ?_,
    fun t ht => ?_, fun id now => ?_, fun t ht htarget => ?_, fun t ht htarget => ?_⟩
  · exact (hmem t ht).elim (fun ht => (hleaving t ht).2.1) fun ht => (hloading t ht).2.1
  · exact (hmem t ht).elim (fun ht => (hleaving t ht).2.2.2) fun ht => (hloading t ht).2.2.2
  · rcases hmem t ht with ht | ht
    · rw [(hleaving t ht).1, (hleaving t ht).2.2.1]
    · rw [(hloading t ht).1, (hloading t ht).2.2.1]
  · rw [flagAfter_append, flagAfter_const fun t ht => (hloading t ht).1,
      flagAfter_const fun t ht => (hleaving t ht).1, hleaving_ids, hloading_ids, residentAfter]
    by_cases hin : id ∈ activated <;> by_cases hout : id ∈ evicted <;> simp [hin, hout]
  · rcases hmem t ht with ht | ht
    · rw [(hleaving t ht).1] at htarget
      cases htarget
    · exact hloading_ids ▸ List.mem_map_of_mem ht
  · rcases hmem t ht with ht | ht
    · exact hleaving_ids ▸ List.mem_map_of_mem ht
    · rw [(hloading t ht).1] at htarget
      cases htarget

theorem grantResident_steps {id} (ha : Admits s a) (hnothing : a.evicted ++ a.activated = [])
    (hfree : s.leases.find? id = none) :
    CoreStep s.core (.acquire requested restorePrior)
      (s.grantResident answers a restorePrior id).1.core := by
  obtain ⟨hevicted, hactivated⟩ := List.append_eq_nil_iff.mp hnothing
  have hadmitted : Admitted s.core a.ids [] [] := by
    have := ha.admitted
    rwa [hevicted, hactivated] at this
  unfold grantResident
  split
  · exact .quiet _ _
  dsimp only
  rw [core_pins]
  cases hjoins : a.joins with
  | false =>
    refine .lease s.core requested restorePrior id a.ids hadmitted hfree fun e he k hk => ?_
    have hany := (ha.beside e he).2.2
    rw [hjoins] at hany
    simpa using List.any_eq_false.mp hany.symm k hk
  | true =>
    cases hepoch : s.epoch with
    | none =>
      rw [ha.alone hepoch] at hjoins
      cases hjoins
    | some e => exact .join s.core requested restorePrior id a.ids e hadmitted hfree hepoch

theorem grantEpoch_steps {owners id} (ha : Admits s a) (hsome : a.evicted ++ a.activated ≠ [])
    (hfree : s.leases.find? id = none)
    (hprepared : OwnersPrepared s.core a.evicted a.activated owners)
    (h : s.grantEpoch answers a restorePrior owners id = some (s', reply)) :
    CoreStep s.core (.acquire requested restorePrior) s'.core := by
  unfold grantEpoch at h
  split at h
  · cases h
    exact .quiet _ _
  dsimp only at h
  unfold publishResidency at h
  rw [hprepared.unpublished] at h
  dsimp only at h
  generalize hpub : publishOwners answers s.live owners.modules = publication at h
  cases publication with
  | aborted => cases h
  | failed message live ts =>
    cases h
    -- the lease that was inserted is erased again, and no owner has changed
    rw [publishOwners_failed hprepared.fresh hpub]
    have hleases : (s.leases.insert id ⟨a.ids, restorePrior, some s.nextSerial⟩).erase id =
        s.leases := by
      rw [erase_insert, erase_of_none hfree]
    change CoreStep s.core _ { s.core with
      leases := (s.leases.insert id ⟨a.ids, restorePrior, some s.nextSerial⟩).erase id }
    rw [hleases]
    exact .quiet _ _
  | published live ts =>
    cases h
    obtain ⟨hall, hundo, hother, hmoved⟩ := publishOwners_published hprepared.fresh hpub
    have hflags : flagAfter ResidencyTransition.id ResidencyTransition.targetResident ts =
        residentAfter a.evicted a.activated := by
      funext k now
      rw [flagAfter_eq_of_forall₂ (hall.imp fun t t' ht => ⟨ht.1, ht.2.2.1⟩), hprepared.target]
    have hids : ts.map ResidencyTransition.id = a.evicted ++ a.activated := by
      rw [← hprepared.ids]
      exact (map_eq_map_of_forall₂ (fun t t' ht => ht.1.symm) hall).symm
    have hnodup : (owners.modules.map ResidencyTransition.id).Nodup := by
      rw [hprepared.ids]
      refine List.nodup_append.mpr ⟨ha.admitted.evicted_nodup, ha.admitted.activated_nodup,
        fun k hk k' hk' heq => ?_⟩
      subst heq
      exact (ha.admitted.evictable k hk).1 ((ha.admitted.mem_activated k).mp hk').1
    have hepoch : s.epoch = none := by
      cases hepoch : s.epoch with
      | none => rfl
      | some e =>
        obtain ⟨hevicted, hactivated, -⟩ := ha.beside e hepoch
        rw [hevicted, hactivated] at hsome
        exact absurd rfl hsome
    -- the owner of a module after the exchange is the one that was prepared
    have hside : ∀ k ∈ a.evicted ++ a.activated, ∃ t ∈ owners.modules, t.id = k ∧
        live k = t.handle.side := by
      intro k hk
      rw [← hprepared.ids] at hk
      obtain ⟨t, ht, rfl⟩ := List.mem_map.mp hk
      exact ⟨t, ht, rfl, hmoved hnodup t ht⟩
    rw [core_pins]
    change CoreStep s.core _ (update { core (ts.foldl _ _) with epoch := _ } _)
    rw [core_moves ResidencyTransition.id ResidencyTransition.targetResident, hflags]
    refine .opens s.core requested restorePrior id a.ids a.evicted a.activated
      { serial := s.nextSerial
        activated := a.activated
        evicted := a.evicted
        affected := a.evicted ++ a.activated
        owners := ⟨ts, true⟩
        openLeases := 1 } live ha.admitted hfree ?_
    refine ⟨hepoch, rfl, rfl, rfl, rfl, hids, fun t ht => ?_, fun t ht => ?_, hundo,
      fun k hk => ?_, fun k hk => ?_, fun k hout hin => ?_, fun htotal hfits => ?_⟩
    · obtain ⟨t₀, -, hex⟩ := exists_of_forall₂_right hall ht
      exact hex.2.2.2
    · obtain ⟨t₀, ht₀, hex⟩ := exists_of_forall₂_right hall ht
      obtain ⟨m, hm, hprior⟩ := hprepared.prior t₀ ht₀
      exact ⟨m, hex.1 ▸ hm, hex.2.1.trans hprior⟩
    · obtain ⟨t, ht, rfl, hlive⟩ := hside k (List.mem_append_left _ hk)
      have hsome := hprepared.side t ht
      cases htarget : t.targetResident with
      | true =>
        have hload := hprepared.loads t ht htarget
        exact absurd ((ha.admitted.mem_activated t.id).mp hload).1
          (ha.admitted.evictable t.id hk).1
      | false =>
        rw [htarget] at hsome
        rw [hlive]
        exact not_isSome_iff_eq_none.mp (by simp [hsome])
    · obtain ⟨t, ht, rfl, hlive⟩ := hside k (List.mem_append_right _ hk)
      rw [hlive, hprepared.side t ht]
      cases htarget : t.targetResident with
      | true => rfl
      | false =>
        have hleave := hprepared.leaves t ht htarget
        exact absurd ((ha.admitted.mem_activated t.id).mp hk).1
          (ha.admitted.evictable t.id hleave).1
    · apply hother
      rw [hprepared.ids, List.mem_append, not_or]
      exact ⟨hout, hin⟩
    · exact ha.fits htotal hfits live

theorem acquire_steps (h : s.acquire answers requested restorePrior = some (s', reply)) :
    CoreStep s.core (.acquire requested restorePrior) s'.core := by
  unfold acquire at h
  dsimp only at h
  split at h
  · cases h; exact .quiet _ _
  · cases h; exact .quiet _ _
  next a hadmit =>
  have ha := admit_spec hadmit
  split at h
  · cases h; exact .quiet _ _
  split at h
  · cases h; exact .quiet _ _
  split at h
  next hnothing =>
    obtain ⟨id, hid, heq⟩ := map_eq_some_iff.mp h
    have hfree : s.leases.find? id = none := freshLeaseId_free hid
    have hstep : CoreStep s.core (.acquire requested restorePrior)
        ((s.countTransaction.afterLeaseId id).grantResident answers a restorePrior id).1.core :=
      grantResident_steps (s := s.countTransaction.afterLeaseId id)
        ⟨ha.admitted, ha.fits, ha.alone, ha.beside⟩ hnothing hfree
    rw [heq] at hstep
    exact hstep
  next hsome =>
  split at h
  · cases h; exact .quiet _ _
  next owners next hprepare =>
  split at h
  · cases h; exact .quiet _ _
  obtain ⟨id, hid, h⟩ := bind_eq_some_iff.mp h
  have hfree : s.leases.find? id = none := freshLeaseId_free hid
  have hprepared : OwnersPrepared s.core a.evicted a.activated owners :=
    prepareResidency_spec hprepare
  exact grantEpoch_steps
    (s := afterLeaseId { s.countTransaction with nextOwner := next } id)
    ⟨ha.admitted, ha.fits, ha.alone, ha.beside⟩ hsome hfree hprepared h

/-! ## Release -/

theorem core_reportBody (s : Manager) (success : Bool) :
    (s.reportBody success).1.core = s.core := by
  cases success <;> rfl

/-- A refused release changes nothing that matters, an accepted one takes the lease away. -/
theorem release_cases {k success} (h : s.release answers k success = some (s', reply)) :
    (reply ≠ .accepted ∧ s'.core = s.core) ∨ (reply = .accepted ∧ s'.core.leases.find? k = none ∧
      CoreStep s.core (.release k success) s'.core) := by
  unfold release at h
  split at h
  · cases h; exact .inl ⟨fun hne => (nomatch hne), rfl⟩
  next entry hfound =>
  split at h
  · cases h; exact .inl ⟨fun hne => (nomatch hne), rfl⟩
  split at h
  next _ houtside =>
    have hs' := congrArg (fun p => (Option.map Prod.fst p).map core) h
    simp only [map_some, core_reportBody, core_retire, some.injEq] at hs'
    refine .inr ⟨(congrArg Prod.snd (some.inj h)).symm, ?_⟩
    rw [← hs']
    exact ⟨find?_erase_self _ _, .returned s.core k success entry hfound houtside⟩
  · cases h
  next serial e hinside hepoch =>
  split at h
  · cases h
  next hvalid =>
  obtain ⟨hserial, hopen⟩ := not_or.mp hvalid
  have hinside' : entry.epoch = some e.serial := by rw [hinside, not_not.mp hserial]
  dsimp only at h
  split at h
  next hlast =>
    split at h
    · cases h; exact .inl ⟨fun hne => (nomatch hne), rfl⟩
    split at h
    · cases h; exact .inl ⟨fun hne => (nomatch hne), rfl⟩
    obtain ⟨resolved, hresolved, heq⟩ := map_eq_some_iff.mp h
    have hs' : s'.core = { resolved with epoch := none }.core := by
      rw [← core_reportBody { resolved with epoch := none } success, heq]
    refine .inr ⟨(congrArg Prod.snd heq).symm, ?_⟩
    rw [hs']
    unfold resolveEpoch at hresolved
    split at hresolved
    next hcommitted =>
      unfold finalizeResidency at hresolved
      split at hresolved
      · split at hresolved
        · cases hresolved
        · cases hresolved
          change (s.retire k entry).core.leases.find? k = none ∧
            CoreStep s.core _ { (s.retire k entry).core with epoch := none }
          rw [core_retire]
          exact ⟨find?_erase_self _ _,
            .commits s.core k success entry e hfound hinside' hepoch hlast hcommitted⟩
      · cases hresolved
    next huncommitted =>
    unfold rollbackResidency at hresolved
    split at hresolved
    · obtain ⟨out, hout, rfl⟩ := map_eq_some_iff.mp hresolved
      obtain ⟨hlive, hall⟩ := rollbackOwners_spec hout e.owners.published
      have hflags : flagAfter ResidencyTransition.id ResidencyTransition.priorResident out.2 =
          e.owners.prior := by
        funext id now
        exact flagAfter_eq_of_forall₂ hall id now
      have hretired : (s.retire k entry).core = s.core.retire k entry := core_retire s k entry
      have hretired_live : (s.retire k entry).live = s.live :=
        congrArg Core.live hretired
      change (core (out.2.foldl _ _)).leases.find? k = none ∧
        CoreStep s.core _ { core (out.2.foldl _ _) with epoch := none }
      rw [core_moves ResidencyTransition.id ResidencyTransition.priorResident, hflags]
      have hmove : move { (s.retire k entry).core with live := out.1 } out.1 e.owners.prior =
          (s.core.retire k entry).move (undoAll s.core.live e.owners.handles)
            e.owners.prior := by
        rw [hretired, hlive, hretired_live]
        rfl
      change (move { (s.retire k entry).core with live := out.1 } out.1
          e.owners.prior).leases.find? k = none ∧ CoreStep s.core _ { move
        { (s.retire k entry).core with live := out.1 } out.1 e.owners.prior with epoch := none }
      rw [hmove]
      exact ⟨find?_erase_self _ _, .undoes s.core k success entry e hfound hinside' hepoch
        hlast (Bool.not_eq_true _ ▸ huncommitted)⟩
    · cases hresolved
  next hseveral =>
  have hs' := congrArg (fun p => (Option.map Prod.fst p).map core) h
  simp only [map_some, core_reportBody, some.injEq] at hs'
  refine .inr ⟨(congrArg Prod.snd (some.inj h)).symm, ?_⟩
  rw [← hs']
  change (s.retire k entry).core.leases.find? k = none ∧
    CoreStep s.core _ { (s.retire k entry).core with epoch := _ }
  rw [core_retire]
  exact ⟨find?_erase_self _ _,
    .left s.core k success entry e hfound hinside' hepoch (by omega)⟩

theorem release_steps {k success} (h : s.release answers k success = some (s', reply)) :
    CoreStep s.core (.release k success) s'.core := by
  rcases release_cases h with ⟨-, hsame⟩ | ⟨-, -, hstep⟩
  · exact hsame ▸ .quiet _ _
  · exact hstep

end ExpertStreaming.Transient
