import ExpertStreaming.Lib.Fallible
import ExpertStreaming.Transient.Core

/-! # Admission

What the manager's loops compute, in terms of the abstract machine: folds over modules
become one update of every module, machine sums become sums, and an admitted request has
modules to evict whose bytes make room for the modules it loads.
-/
namespace ExpertStreaming.Transient

open Lib Planner Manager OrdMap

/-! ## Loops over modules -/

variable {s : Manager} {id : String} {f : ModuleEntry → ModuleEntry} {ids : OrdMap String Unit}
  {device : Int}

theorem core_find? {m} (h : s.modules.find? id = some m) :
    s.core.modules.find? id = some m.held := by
  simp [core, find?_mapWithKey, h]

theorem find?_of_core {m} (h : s.core.modules.find? id = some m) :
    ∃ entry, s.modules.find? id = some entry ∧ entry.held = m := by
  simpa [core, find?_mapWithKey] using h

theorem held_modify {g : Held → Held}
    (h : ∀ m, (f m).held = g m.held) (modules : OrdMap String ModuleEntry) (id : String) :
    ((modules.modify id f).mapWithKey fun _ m => m.held) =
      (modules.mapWithKey fun _ m => m.held).mapWithKey fun k m => if k = id then g m else m := by
  rw [OrdMap.modify, OrdMap.mapWithKey_mapWithKey, OrdMap.mapWithKey_mapWithKey]
  apply mapWithKey_congr
  intro k m _
  split
  · exact h m
  · rfl

theorem core_modify {s' : Manager} {g : Held → Held} (h : ∀ m, (f m).held = g m.held)
    (hs : s'.core = { s with modules := s.modules.modify id f }.core) :
    s'.core = s.core.update fun k m => if k = id then g m else m := by
  rw [hs]
  unfold core Core.update
  congr 1
  exact held_modify h _ _

theorem core_setResident (s : Manager) (id : String) (resident : Bool) :
    (s.setResident id resident).core =
      s.core.update fun k m => if k = id then { m with resident := resident } else m :=
  core_modify (f := fun m => { m with
    resident := resident, lastUse := if resident then s.clock + 1 else m.lastUse })
    (fun _ => rfl) rfl

theorem core_moves {τ : Type} (key : τ → String) (flag : τ → Bool) (ts : List τ) (s : Manager) :
    (ts.foldl (fun s t => s.moveTo (key t) (flag t)) s).core =
      s.core.move s.core.live (flagAfter key flag ts) := by
  induction ts generalizing s with
  | nil => exact (Core.update_id s.core).symm
  | cons t rest ih =>
    have hone : (s.moveTo (key t) (flag t)).core = s.core.update fun k m =>
        if k = key t then { m with resident := flag t } else m := core_setResident s _ _
    rw [List.foldl_cons, ih, hone, Core.move_live, Core.update_update, Core.move_live]
    apply Core.update_congr
    intro k m _
    dsimp only [flagAfter, List.foldl_cons]
    by_cases hk : key t = k
    · simp [hk]
    · simp [hk, Ne.symm hk]

theorem core_setFlags (s : Manager) (id : String) (enabled resident : Bool) :
    (s.setFlags id enabled resident).core = s.core.update fun k m =>
      if k = id then { m with enabled := enabled, resident := resident } else m := by
  have hone : (s.setEnabled id enabled).core = s.core.update fun k m =>
      if k = id then { m with enabled := enabled } else m :=
    core_modify (f := fun m => { m with enabled := enabled }) (fun _ => rfl) rfl
  rw [setFlags, core_setResident, hone, Core.update_update]
  apply Core.update_congr
  intro k m _
  split
  · rfl
  · rfl

theorem core_flags (enabled resident : PolicyTransition → Bool) (ts : List PolicyTransition)
    (s : Manager) :
    (ts.foldl (fun (s : Manager) t => s.setFlags t.id (enabled t) (resident t)) s).core =
      s.core.setFlags s.core.live ts enabled resident := by
  induction ts generalizing s with
  | nil => exact (Core.update_id s.core).symm
  | cons t rest ih =>
    rw [List.foldl_cons, ih, core_setFlags, Core.setFlags_live, Core.update_update,
      Core.setFlags_live]
    apply Core.update_congr
    intro k m _
    dsimp only [flagAfter, List.foldl_cons]
    by_cases hk : t.id = k
    · simp [hk]
    · simp [hk, Ne.symm hk]

theorem core_pins (ids : List String) (s : Manager) :
    (ids.foldl Manager.pin s).core =
      s.core.update fun k m => { m with pins := m.pins + ids.count k } := by
  induction ids generalizing s with
  | nil => exact (Core.update_id s.core).symm
  | cons id rest ih =>
    have hone : (s.pin id).core = s.core.update fun k m =>
        if k = id then { m with pins := m.pins + 1 } else m :=
      core_modify (f := fun m => { m with lastUse := s.clock + 1, pins := m.pins + 1 })
        (fun _ => rfl) rfl
    rw [List.foldl_cons, ih, hone, Core.update_update]
    apply Core.update_congr
    intro k m _
    rw [List.count_cons]
    by_cases hk : k = id
    · simp [hk]; omega
    · simp [hk, Ne.symm hk]

theorem core_unpins (ids : List String) (s : Manager) :
    (ids.foldl Manager.unpin s).core =
      s.core.update fun k m => { m with pins := m.pins - ids.count k } := by
  induction ids generalizing s with
  | nil => exact (Core.update_id s.core).symm
  | cons id rest ih =>
    have hone : (s.unpin id).core = s.core.update fun k m =>
        if k = id then { m with pins := m.pins - 1 } else m :=
      core_modify (f := fun m => { m with pins := m.pins - 1 }) (fun _ => rfl) rfl
    rw [List.foldl_cons, ih, hone, Core.update_update]
    apply Core.update_congr
    intro k m _
    rw [List.count_cons]
    by_cases hk : k = id
    · simp [hk]; omega
    · simp [hk, Ne.symm hk]

theorem core_retire (s : Manager) (k : Nat) (entry : LeaseEntry) :
    (s.retire k entry).core = s.core.retire k entry := core_unpins _ _

/-! ## Machine sums -/

theorem foldl_u64Add_eq {β : Type} (p : β → Prop) [DecidablePred p] (bytes : β → Nat)
    (l : List β) (acc : Nat) (h : acc + (l.map bytes).sum ≤ u64Max) :
    l.foldl (fun sum b => if p b then u64Add sum (bytes b) else sum) acc =
      acc + (l.map fun b => if p b then bytes b else 0).sum := by
  induction l generalizing acc with
  | nil => simp
  | cons b rest ih =>
    simp only [List.map_cons, List.sum_cons, List.foldl_cons] at h ⊢
    split
    · rw [u64Add_of_le (by omega), ih _ (by omega)]
      omega
    · rw [ih _ (by omega)]
      omega

theorem residentBytesLocked_eq (h : s.core.totalBytes ≤ u64Max) (device : Int) :
    s.residentBytesLocked device = s.core.view.residentBytes device := by
  simp only [Core.totalBytes, core, sumBy_mapWithKey] at h
  rw [residentBytesLocked, foldl_u64Add_eq
    (fun b : String × ModuleEntry => b.2.resident = true ∧ b.2.desc.device = device)
    (fun b => b.2.desc.bytes) _ _ (by simpa [sumBy, ModuleEntry.held] using h)]
  simp only [View.residentBytes, Core.view, core, sumBy_mapWithKey]
  rw [sumBy, Nat.zero_add]
  rfl

/-! ## Registration -/

theorem core_addModule (s : Manager) (desc : ModuleDesc) :
    (s.addModule desc).core = s.core.add desc s.nextOwner := by
  unfold addModule core Core.add
  congr 1
  exact mapWithKey_insert _ _ _ _

theorem registerModule_steps (s : Manager) (desc : ModuleDesc) :
    CoreStep s.core (.registerModule desc) (s.registerModule desc).1.core := by
  unfold registerModule
  split
  · exact .quiet _ _
  next hclosed =>
  split
  · exact .quiet _ _
  split
  · exact .quiet _ _
  next hfresh =>
  split
  · exact .quiet _ _
  next hbudgeted =>
  split
  · exact .quiet _ _
  split
  · exact .quiet _ _
  next hfits =>
  rw [core_addModule]
  refine .register _ _ _ ?_ ?_ ?_ ?_
  · exact Option.not_isSome_iff_eq_none.mp hclosed
  · simpa [core, find?_mapWithKey, contains] using hfresh
  · exact not_not.mp hbudgeted
  · intro htotal
    rw [← core_addModule] at htotal ⊢
    rw [← residentBytesLocked_eq htotal]
    exact Nat.le_of_not_lt hfits

/-! ## Bytes of selected modules -/

namespace Core

def weight (c : Core) (p : String → Held → Bool) : Nat :=
  c.modules.sumBy fun id m => if p id m then m.desc.bytes else 0

theorem weight_le_total (c : Core) (p : String → Held → Bool) : c.weight p ≤ c.totalBytes := by
  apply sumBy_le
  intro id m _
  split
  · exact Nat.le_refl _
  · exact Nat.zero_le _

variable {c : Core} {p q : String → Held → Bool}

theorem weight_congr
    (h : ∀ id m, c.modules.find? id = some m → p id m = q id m) : c.weight p = c.weight q := by
  apply sumBy_congr
  intro id m hm
  rw [h id m hm]

theorem weight_split (c : Core) (p q : String → Held → Bool) :
    c.weight p = c.weight (fun id m => p id m && q id m) +
      c.weight fun id m => p id m && !q id m := by
  unfold weight
  rw [← sumBy_add]
  apply sumBy_congr
  intro id m _
  cases hp : p id m <;> cases hq : q id m <;> simp [hp, hq]

theorem weight_le_of_imp (h : ∀ id m, c.modules.find? id = some m → p id m = true → q id m = true) :
    c.weight p ≤ c.weight q := by
  apply sumBy_le
  intro id m hm
  cases hp : p id m with
  | false => simp
  | true => rw [h id m hm hp]

theorem residentBytes_view (c : Core) (device : Int) : c.view.residentBytes device =
    c.weight fun _ m => m.resident && decide (m.desc.device = device) := by
  unfold View.residentBytes weight
  rw [view, sumBy_mapWithKey]
  apply sumBy_congr
  intro id m _
  simp only [Bool.and_eq_true, decide_eq_true_eq]
  rfl

theorem weight_insert {id m} (hm : c.modules.find? id = some m) (hp : p id m = false)
    (hother : ∀ id' m', c.modules.find? id' = some m' → id' ≠ id → p id' m' = q id' m') :
    c.weight q = c.weight p + if q id m then m.desc.bytes else 0 := by
  have hchange := sumBy_change (f := fun id m => if q id m then m.desc.bytes else 0)
    (g := fun id m => if p id m then m.desc.bytes else 0) hm (by
      intro id' m' hm' hne
      rw [hother id' m' hm' hne])
  simp only [hp, Bool.false_eq_true, if_false, Nat.add_zero] at hchange
  exact hchange

theorem weight_mem {ids : List String} (bytes : String → Nat) (hnodup : ids.Nodup)
    (h : ∀ id ∈ ids, ∃ m, c.modules.find? id = some m ∧ m.desc.bytes = bytes id) :
    c.weight (fun id _ => decide (id ∈ ids)) = (ids.map bytes).sum := by
  rw [← sumBy_keys (fun _ (m : Held) => m.desc.bytes) bytes hnodup h]
  simp [weight]

end Core

/-! ## The requested modules -/

/-- What has been collected so far. -/
structure Collected (c : Core) (r : Manager.Request) : Prop where
  enabled : ∀ id, r.ids.contains id = true → ∃ m, c.modules.find? id = some m ∧ m.enabled = true
  needed : c.totalBytes ≤ u64Max → ∀ device, (r.needed.find? device).getD 0 =
    c.weight fun id m => r.ids.contains id && !m.resident && decide (m.desc.device = device)

theorem contains_insert {id'} :
    (ids.insert id ()).contains id' = (decide (id' = id) || ids.contains id') := by
  unfold contains
  rw [find?_insert]
  by_cases h : id' = id <;> simp [h]

theorem collectOne_collected {r r'} (h : s.collectOne r id = .ok r') (hr : Collected s.core r) :
    Collected s.core r' := by
  unfold collectOne at h
  split at h
  · cases h
  next m hm =>
  split at h
  · cases h
  next henabled =>
  split at h
  · cases h
    exact hr
  next hnew =>
  cases h
  have hfound := core_find? hm
  refine ⟨?_, ?_⟩
  · intro id' hid'
    simp only [contains_insert, Bool.or_eq_true, decide_eq_true_eq] at hid'
    rcases hid' with rfl | hid'
    · exact ⟨m.held, hfound, Bool.not_eq_false _ ▸ henabled⟩
    · exact hr.enabled id' hid'
  · intro htotal device
    have hold := hr.needed htotal device
    have hbound := s.core.weight_le_total fun id' m' =>
      (r.ids.insert id ()).contains id' && !m'.resident && decide (m'.desc.device = device)
    -- the new module is the only one whose membership changes
    have hstep := Core.weight_insert
      (p := fun id m => r.ids.contains id && !m.resident && decide (m.desc.device = device))
      (q := fun id' m => (r.ids.insert id ()).contains id' && !m.resident &&
        decide (m.desc.device = device)) hfound (by simp [hnew]) (by
        intro id' m' _ hne
        simp [contains_insert, hne])
    rw [hstep, ← hold] at hbound
    rw [hstep, ← hold]
    cases hresident : m.resident with
    | true => simp [ModuleEntry.held, hresident]
    | false =>
      by_cases hdevice : m.desc.device = device
      · subst hdevice
        simp only [contains_insert, ModuleEntry.held, hresident] at hbound ⊢
        simp only [decide_true, Bool.true_or, Bool.not_false, Bool.and_self, if_true,
          Bool.false_eq_true, if_false, find?_insert_self, Option.getD_some] at hbound ⊢
        exact u64Add_of_le (by omega)
      · simp only [contains_insert, ModuleEntry.held, hresident, hdevice, decide_false,
          Bool.and_false, Bool.false_eq_true, if_false, Nat.add_zero]
        rw [find?_insert_of_ne _ _ (Ne.symm hdevice)]

theorem collect_collected {requested r r'} (h : s.collect requested r = .ok r')
    (hr : Collected s.core r) : Collected s.core r' := by
  induction requested generalizing r with
  | nil => cases h; exact hr
  | cons id rest ih =>
    obtain ⟨mid, hone, hrest⟩ := except_bind_eq_ok.mp h
    exact ih hrest (collectOne_collected hone hr)

theorem collected_empty (c : Core) : Collected c {} := by
  refine ⟨fun id h => by simp [contains] at h, fun _ device => ?_⟩
  have hzero : c.weight (fun id m => (empty : OrdMap String Unit).contains id &&
      !m.resident && decide (m.desc.device = device)) = 0 :=
    sumBy_eq_zero fun id m _ => by simp [contains]
  exact hzero.symm

/-! ## Evictions -/

abbrev residentOn (device : Int) : String → Held → Bool :=
  fun _ m => m.resident && decide (m.desc.device = device)

theorem mem_candidates (h : id ∈ s.candidates ids device) : ids.contains id = false ∧
      ∃ m, s.core.modules.find? id = some m ∧ m.resident = true ∧ m.pins = 0 ∧
        m.desc.device = device ∧ m.desc.bytes = s.bytesOf id := by
  obtain ⟨b, hb, rfl⟩ := List.mem_map.mp h
  obtain ⟨hmem, hkeep⟩ := List.mem_filter.mp ((List.mem_insertionSort _).mp hb)
  simp only [decide_eq_true_eq] at hkeep
  have hfound : s.modules.find? b.1 = some b.2 := find?_eq_some.mpr hmem
  refine ⟨by simpa using hkeep.2.2.2, b.2.held, core_find? hfound, hkeep.1, hkeep.2.1,
    hkeep.2.2.1, ?_⟩
  rw [bytesOf, hfound]
  rfl

theorem nodup_candidates (s : Manager) (ids : OrdMap String Unit) (device : Int) :
    (s.candidates ids device).Nodup := by
  unfold candidates
  rw [((List.perm_insertionSort _ _).map Prod.fst).nodup_iff]
  exact (s.modules.nodup_keys).sublist (List.filter_sublist.map Prod.fst)

theorem evictUntil_spec (s : Manager) (usable need projected : Nat) (ids : List String) :
    (∃ rest, ids = (s.evictUntil usable need projected ids).2 ++ rest) ∧
    ((ids.map s.bytesOf).sum ≤ projected →
      (s.evictUntil usable need projected ids).1 +
        ((s.evictUntil usable need projected ids).2.map s.bytesOf).sum = projected) := by
  induction ids generalizing projected with
  | nil => exact ⟨⟨[], rfl⟩, fun _ => rfl⟩
  | cons id rest ih =>
    rw [evictUntil]
    split
    · exact ⟨⟨id :: rest, rfl⟩, fun _ => rfl⟩
    · obtain ⟨⟨kept, hkept⟩, hsum⟩ := ih (u64Sub projected (s.bytesOf id))
      refine ⟨⟨kept, by rw [List.cons_append, ← hkept]⟩, fun hle => ?_⟩
      simp only [List.map_cons, List.sum_cons] at hle ⊢
      rw [u64Sub_of_le (by omega)] at hsum ⊢
      have := hsum (by omega)
      omega

/-- The evictions on one device make room for its need. -/
structure EvictedOn (s : Manager) (ids : OrdMap String Unit) (device : Int) (need : Nat)
    (evicted : List String) : Prop where
  nodup : evicted.Nodup
  evictable : ∀ id ∈ evicted, ids.contains id = false ∧
    ∃ m, s.core.modules.find? id = some m ∧ m.resident = true ∧ m.pins = 0 ∧
      m.desc.device = device
  fits : s.core.totalBytes ≤ u64Max → s.core.weight (residentOn device) + need ≤ u64Max →
    s.core.weight (fun id m => residentOn device id m && !decide (id ∈ evicted)) + need ≤
      s.usableBytes device

theorem weight_candidates {chosen : List String}
    (hsub : ∀ id ∈ chosen, id ∈ s.candidates ids device) (hnodup : chosen.Nodup) :
    s.core.weight (fun id m => residentOn device id m && decide (id ∈ chosen)) =
      (chosen.map s.bytesOf).sum := by
  rw [← Core.weight_mem s.bytesOf hnodup fun id hid => by
    obtain ⟨-, m, hm, -, -, -, hb⟩ := mem_candidates (hsub id hid)
    exact ⟨m, hm, hb⟩]
  apply Core.weight_congr
  intro id m hm
  by_cases hid : id ∈ chosen
  · obtain ⟨-, m', hm', hresident, -, hdevice, -⟩ := mem_candidates (hsub id hid)
    obtain rfl := Option.some.inj (hm.symm.trans hm')
    simp [hid, hresident, hdevice]
  · simp [hid]

theorem evictDevice_spec {need : Nat}
    {evicted : List String} (h : s.evictDevice ids device need = .ok evicted) :
    EvictedOn s ids device need evicted := by
  unfold evictDevice at h
  split at h
  · cases h
  dsimp only at h
  split at h
  · cases h
  next hroom =>
  cases h
  have hspec := evictUntil_spec s (s.usableBytes device) need (s.residentBytesLocked device)
    (s.candidates ids device)
  obtain ⟨⟨rest, hrest⟩, hsum⟩ := hspec
  generalize hplan : s.evictUntil (s.usableBytes device) need (s.residentBytesLocked device)
    (s.candidates ids device) = plan at *
  have hmem : ∀ id ∈ plan.2, id ∈ s.candidates ids device := fun id hid => by
    rw [hrest]
    exact List.mem_append_left _ hid
  have hnodup := nodup_candidates s ids device
  have hplan_nodup : plan.2.Nodup := by
    rw [hrest] at hnodup
    exact (List.nodup_append.mp hnodup).1
  refine ⟨hplan_nodup, fun id hid => ?_, fun htotal hbound => ?_⟩
  · obtain ⟨hnot, m, hm, hresident, hpins, hdevice, -⟩ := mem_candidates (hmem id hid)
    exact ⟨hnot, m, hm, hresident, hpins, hdevice⟩
  · have hlocked : s.residentBytesLocked device = s.core.weight (residentOn device) := by
      rw [residentBytesLocked_eq htotal, Core.residentBytes_view]
    have hall := weight_candidates (fun _ hid => hid) hnodup
    have hsplit := s.core.weight_split (residentOn device)
      fun id _ => decide (id ∈ s.candidates ids device)
    have hsplit' := s.core.weight_split (residentOn device) fun id _ => decide (id ∈ plan.2)
    have hevicted := weight_candidates hmem hplan_nodup
    have hprojected := hsum (by omega)
    rw [u64Add_of_le (by omega)] at hroom
    omega

theorem evictAll_spec {needed evicted} (h : s.evictAll ids needed = .ok evicted)
    (hdevices : (needed.map Prod.fst).Nodup) :
    evicted.Nodup ∧
    (∀ id ∈ evicted, ids.contains id = false ∧ ∃ m, s.core.modules.find? id = some m ∧
      m.resident = true ∧ m.pins = 0 ∧ m.desc.device ∈ needed.map Prod.fst) ∧
    (s.core.totalBytes ≤ u64Max →
      (∀ p ∈ needed, s.core.weight (residentOn p.1) + p.2 ≤ u64Max) → ∀ p ∈ needed,
        s.core.weight (fun id m => residentOn p.1 id m && !decide (id ∈ evicted)) + p.2 ≤
          s.usableBytes p.1) := by
  induction needed generalizing evicted with
  | nil =>
    cases h
    exact ⟨.nil, by simp, by simp⟩
  | cons entry rest ih =>
    obtain ⟨device, need⟩ := entry
    obtain ⟨here, hhere, h⟩ := except_bind_eq_ok.mp h
    obtain ⟨later, hlater, rfl⟩ := except_map_eq_ok.mp h
    obtain ⟨hnew, hdevices⟩ := List.nodup_cons.mp hdevices
    have hone := evictDevice_spec hhere
    obtain ⟨hnodup, hevictable, hfits⟩ := ih hlater hdevices
    refine ⟨?_, ?_, ?_⟩
    · -- modules of different devices are different
      refine List.nodup_append.mpr ⟨hone.nodup, hnodup, fun id hid id' hid' heq => ?_⟩
      subst heq
      obtain ⟨-, m, hm, -, -, hdevice⟩ := hone.evictable id hid
      obtain ⟨-, m', hm', -, -, hdevice'⟩ := hevictable id hid'
      obtain rfl := Option.some.inj (hm.symm.trans hm')
      exact hnew (hdevice ▸ hdevice')
    · intro id hid
      rcases List.mem_append.mp hid with hid | hid
      · obtain ⟨hnot, m, hm, hresident, hpins, hdevice⟩ := hone.evictable id hid
        exact ⟨hnot, m, hm, hresident, hpins, by simp [hdevice]⟩
      · obtain ⟨hnot, m, hm, hresident, hpins, hdevice⟩ := hevictable id hid
        exact ⟨hnot, m, hm, hresident, hpins, List.mem_cons_of_mem _ hdevice⟩
    · intro htotal hbound p hp
      rcases List.mem_cons.mp hp with rfl | hp
      · refine Nat.le_trans (Nat.add_le_add_right ?_ _)
          (hone.fits htotal (hbound (device, need) List.mem_cons_self))
        apply Core.weight_le_of_imp
        intro id m _ hid
        simp only [Bool.and_eq_true, Bool.not_eq_true', decide_eq_false_iff_not,
          List.mem_append, not_or] at hid ⊢
        exact ⟨hid.1, hid.2.1⟩
      · refine Nat.le_trans (Nat.add_le_add_right ?_ _)
          (hfits htotal (fun q hq => hbound q (List.mem_cons_of_mem _ hq)) p hp)
        apply Core.weight_le_of_imp
        intro id m _ hid
        simp only [Bool.and_eq_true, Bool.not_eq_true', decide_eq_false_iff_not,
          List.mem_append, not_or] at hid ⊢
        exact ⟨hid.1, hid.2.2⟩

end ExpertStreaming.Transient
