import ExpertStreaming.RamCache.Finish
import ExpertStreaming.RamCache.PlanSound

/-! # The RAM expert cache: reservations

Admission and re-planning. The planner's specification, read over a cache state,
says that a new placement is clear of every other reservation and of every entry
it does not evict; reserving it extends the layout.
-/
namespace ExpertStreaming.RamCache
open Lib State OrdMap

variable {p : Params} {s : State}

/-! ## The planner over a cache state -/

theorem Layout.mem_byOffset (hl : Layout p s) {b} :
    b ∈ s.byOffset.toList ↔ s.Resident p b.2 ∧ (s.heap b.2).arenaOffset = b.1 := by
  rw [← hl.by_offset b.1 b.2, find?_eq_some]

variable {own : Option LoadId}

theorem Layout.mem_resident (hl : Layout p s) {r} :
    r ∈ (s.arenaView p own).resident ↔ ∃ e, s.Resident p e ∧ r = s.region p e := by
  simp only [arenaView, List.mem_map]
  constructor
  · rintro ⟨b, hb, hr⟩
    obtain ⟨he, ho⟩ := hl.mem_byOffset.mp hb
    exact ⟨b.2, he, by rw [← hr, region, ho]⟩
  · rintro ⟨e, he, hr⟩
    exact ⟨((s.heap e).arenaOffset, e), hl.mem_byOffset.mpr ⟨he, rfl⟩, hr.symm⟩

theorem Layout.pending_iff (hl : Layout p s) {l} :
    s.Pending p l ↔ l ∈ s.pending.values := by
  rw [State.Pending, hl.result, mem_values]
  constructor
  · intro h; exact ⟨_, h⟩
  · rintro ⟨k, hk⟩; rw [hl.load_key k l hk]; exact hk

theorem Layout.mem_reservations (hl : Layout p s) {r} :
    r ∈ (s.arenaView p own).reservations ↔
      ∃ l, s.Pending p l ∧ some l ≠ own ∧ r = s.claim p l := by
  simp only [arenaView, List.mem_map, List.mem_filter, decide_eq_true_eq]
  constructor
  · intro ⟨l, ⟨hl', hne⟩, hr⟩
    exact ⟨l, hl.pending_iff.mpr hl', hne, hr.symm⟩
  · intro ⟨l, hp, hne, hr⟩
    exact ⟨l, ⟨hl.pending_iff.mp hp, hne⟩, hr.symm⟩

theorem mem_candidates {c} :
    c ∈ (s.arenaView p own).candidates ↔
      c.1 ∈ s.byRecency ∧ s.evictable own c.1 = true ∧ c.2 = s.region p c.1 := by
  simp only [arenaView, List.mem_map, List.mem_filter]
  constructor
  · intro ⟨e, ⟨he, hv⟩, hc⟩; subst hc; exact ⟨he, hv, rfl⟩
  · intro ⟨he, hv, hc⟩; exact ⟨c.1, ⟨he, hv⟩, by rw [← hc]⟩

theorem Layout.arenaView_wf (hl : Layout p s) (hr : Retention p s) (own : Option LoadId) :
    (s.arenaView p own).WF where
  capacity_le := p.config.capacity_le
  resident_order := by
    simp only [arenaView, List.pairwise_map]
    refine (List.Pairwise.and_mem.mp s.byOffset.sorted).imp fun {a b} h => ?_
    obtain ⟨ha, hb, hlt⟩ := h
    obtain ⟨hea, hoa⟩ := hl.mem_byOffset.mp ha
    obtain ⟨heb, hob⟩ := hl.mem_byOffset.mp hb
    have hne : a.2 ≠ b.2 := by
      intro he
      rw [he, hob] at hoa
      exact hlt.ne hoa.symm
    -- regions in address order do not overlap, so the lower one ends first
    have hap := hl.entry_apart a.2 b.2 hea heb hne
    simp only [Region.Apart, Region.stop, region, hoa, hob] at hap
    have hpos := s.bytesOf_pos p b.2
    simp only [Region.stop]
    omega
  resident_in r hmem := by
    obtain ⟨e, he, rfl⟩ := hl.mem_resident.mp hmem
    exact hl.entry_in e he
  reservations_in r hmem := by
    obtain ⟨l, hp, _, rfl⟩ := hl.mem_reservations.mp hmem
    exact hl.claim_in l hp
  candidates_resident c hc := by
    obtain ⟨he, _, hreg⟩ := mem_candidates.mp hc
    exact hl.mem_resident.mpr ⟨c.1, hr.resident _ he, hreg⟩

/-- A placement the planner may return. -/
structure Placement (p : Params) (s : State) (bytes : Nat) (own : Option LoadId) (offset : Nat)
    (victims : List EntryId) : Prop where
  aligned : 64 ∣ offset
  in_arena : offset + bytes ≤ p.config.capacityBytes
  nodup : victims.Nodup
  listed : ∀ v ∈ victims, v ∈ s.byRecency
  evictable : ∀ v ∈ victims, s.evictable own v = true
  clear_claims : ∀ l, s.Pending p l → some l ≠ own → Region.Apart ⟨offset, bytes⟩ (s.claim p l)
  clear_entries : ∀ e, s.Resident p e → e ∉ victims → Region.Apart ⟨offset, bytes⟩ (s.region p e)

theorem allocationPlan_spec (hl : Layout p s) (hr : Retention p s) {bytes} (hpos : 0 < bytes)
    (own : Option LoadId) :
    (∃ offset victims, s.allocationPlan p bytes own = .ok (some (offset, victims)) ∧
        Placement p s bytes own offset victims) ∨
      (s.allocationPlan p bytes own = .ok none ∧ ∀ o, 64 ∣ o → ¬ Set.Ico o (o + bytes) ⊆
        (s.arenaView p own).openCells (s.arenaView p own).candidates) := by
  rcases (hl.arenaView_wf hr own).plan_spec hpos with ⟨r, hplan, hsound⟩ | hnone
  · refine .inl ⟨r.1, r.2, hplan, ?_⟩
    have hsub : r.2 <+: s.byRecency.filter (s.evictable own) := by
      have := hsound.victims_sublist
      rwa [arenaView, List.map_map, show (Prod.fst ∘ fun e => (e, s.region p e)) = id from rfl,
        List.map_id] at this
    have hvictim : ∀ v ∈ r.2, v ∈ s.byRecency ∧ s.evictable own v = true := fun v hv =>
      List.mem_filter.mp (hsub.subset hv)
    refine ⟨hsound.aligned, hsound.in_arena hpos, (hr.nodup.filter _).sublist hsub.sublist,
      fun v hv => (hvictim v hv).1, fun v hv => (hvictim v hv).2, ?_, ?_⟩
    · intro l hp hne
      exact hsound.apart_reservation hpos (s.bytesOf_pos p _)
        (hl.mem_reservations.mpr ⟨l, hp, hne, rfl⟩)
    · intro e he hout
      refine hsound.apart_resident hpos (s.bytesOf_pos p e) (hl.mem_resident.mpr ⟨e, he, rfl⟩) ?_
      intro c hc hcv
      obtain ⟨hcr, _, hreg⟩ := mem_candidates.mp hc
      rw [hreg]
      exact hl.entry_apart e c.1 he (hr.resident _ hcr) fun h => hout (h ▸ hcv)
  · exact .inr hnone

theorem evictable_iff {e} :
    s.evictable own e = true ↔ (s.heap e).ready = true ∧ (s.heap e).pins = 0 ∧
      ((s.heap e).reservedBy = none ∨ (s.heap e).reservedBy = own) := by
  simp [evictable, and_assoc]

/-! ## The staging area -/

theorem stagingPlan_spec (hl : Layout p s) {bytes} (hin : bytes ≤ p.config.stagingBytes) :
    (∃ o, s.stagingPlan p bytes = .ok (some o) ∧ o + bytes ≤ p.config.stagingBytes ∧
        ∀ l, s.Pending p l → Region.Apart ⟨o, bytes⟩ (s.stage p l)) ∨
      (s.stagingPlan p bytes = .ok none ∧ s.pending.isEmpty = false) := by
  unfold stagingPlan
  cases hempty : s.pending.isEmpty with
  | true =>
    refine .inl ⟨0, by simp [hin], by omega, ?_⟩
    intro l hp
    rw [State.Pending, isEmpty_iff.mp hempty] at hp
    cases hp
  | false =>
    rw [if_neg Bool.false_ne_true]
    have hplaced : Placed p.config.stagingBytes
        (s.pending.values.map fun l => interval (s.stage p l)) := by
      intro i hi
      obtain ⟨l, hmem, rfl⟩ := List.mem_map.mp hi
      exact ⟨Nat.le_add_right _ _, hl.stage_in l (hl.pending_iff.mpr hmem)⟩
    obtain ⟨r, hscan⟩ := @scanFit_ok 1 bytes _ _ 0 hplaced.sort
    rw [arenaFirstFit, hscan]
    cases r with
    | none => exact .inr ⟨rfl, rfl⟩
    | some o =>
      obtain ⟨_, _, hroom, hclear⟩ :=
        scanFit_sound (by decide) _ _ (sorted_sortIntervals _) hscan
      refine .inl ⟨o, rfl, hroom, fun l hp => ?_⟩
      have := hclear (interval (s.stage p l))
        (mem_sortIntervals.mpr (List.mem_map_of_mem (hl.pending_iff.mp hp)))
      exact this.symm

/-! ## Reserving a place -/

/-- The load `l` has reserved a place and marked its victims, `old` of them before. -/
structure Reserves (p : Params) (s u : State) (l : LoadId) (offset : Nat)
    (victims old : List EntryId) : Prop where
  entries : u.entries = s.entries
  byOffset : u.byOffset = s.byOffset
  next : s.next ≤ u.next
  fresh : l < u.next
  absent : ¬ s.Resident p l
  entry : ∀ e, e ≠ l → u.heap e = { s.heap e with
    reservedBy := if e ∈ victims then some l else
      if e ∈ old then none else (s.heap e).reservedBy }
  unmarked : (u.heap l).reservedBy = none
  old_iff : ∀ e, s.Resident p e → (e ∈ old ↔ (s.heap e).reservedBy = some l)
  load : ∀ m, m ≠ l → u.loads m = s.loads m
  load_self : (u.loads l).result = l ∧ (u.loads l).state = .loading ∧
    (u.loads l).error = none ∧ (u.loads l).victims = victims ∧ (u.loads l).arenaOffset = offset
  pending : ∀ m, u.Pending p m ↔ s.Pending p m ∨ m = l
  load_key : ∀ k m, u.pending.find? k = some m → u.keyOf p m = k
  stage_in : (u.stage p l).stop ≤ p.config.stagingBytes
  stage_clear : ∀ m, m ≠ l → s.Pending p m → (u.stage p l).Apart (s.stage p m)
  placement : ∃ own, (∀ m, m ≠ l → some m ≠ own) ∧
    Placement p s (u.bytesOf p l) own offset victims

namespace Reserves
variable {u : State} {l m : LoadId} {offset : Nat} {victims old : List EntryId} {e : EntryId}
variable (h : Reserves p s u l offset victims old)
include h

theorem keyOf (he : e ≠ l) : u.keyOf p e = s.keyOf p e := by rw [State.keyOf, h.entry e he]; rfl

theorem bytesOf (he : e ≠ l) : u.bytesOf p e = s.bytesOf p e := by
  rw [State.bytesOf, h.entry e he]; rfl

theorem region (he : e ≠ l) : u.region p e = s.region p e := by
  rw [State.region, h.bytesOf he, h.entry e he]; rfl

theorem claim_self : u.claim p l = ⟨offset, u.bytesOf p l⟩ := by
  rw [State.claim, h.load_self.1, h.load_self.2.2.2.2]

theorem claim (hl : Layout p s) (hm : m ≠ l) : u.claim p m = s.claim p m := by
  rw [State.claim, State.claim, h.load m hm, hl.result, h.bytesOf hm]

theorem stage (hl : Layout p s) (hm : m ≠ l) : u.stage p m = s.stage p m := by
  rw [State.stage, State.stage, h.load m hm, hl.result, h.bytesOf hm]

theorem resident_ne (he : s.Resident p e) : e ≠ l := fun heq => h.absent (heq ▸ he)

theorem resident (hl : Layout p s) (e : EntryId) : u.Resident p e ↔ s.Resident p e := by
  by_cases he : e = l
  · subst he
    refine iff_of_false (fun hres => h.absent ?_) h.absent
    rw [State.Resident, h.entries] at hres
    rw [State.Resident, hl.entry_key _ _ hres]
    exact hres
  · simp only [State.Resident, h.entries, h.keyOf he]

theorem mark (he : s.Resident p e) (hm : m ≠ l) (hem : (s.heap e).reservedBy = some m) :
    (u.heap e).reservedBy = some m := by
  obtain ⟨own, hown, hplace⟩ := h.placement
  rw [h.entry e (h.resident_ne he)]
  dsimp only
  rw [if_neg, if_neg]
  · exact hem
  · intro hold
    rw [(h.old_iff e he).mp hold] at hem
    exact hm (Option.some.inj hem).symm
  · intro hv
    rcases (evictable_iff.mp (hplace.evictable e hv)).2.2 with hnone | hmine
    · rw [hnone] at hem; cases hem
    · exact hown m hm (hem.symm.trans hmine)

theorem layout (hl : Layout p s) (hr : Retention p s) : Layout p u := by
  obtain ⟨own, hown, hplace⟩ := h.placement
  obtain ⟨hresult, hstate, herror, hvictims, hoffset⟩ := h.load_self
  have hres := h.resident hl
  have hvictim : ∀ v ∈ victims, s.Resident p v ∧ (s.heap v).ready = true := fun v hv =>
    ⟨hr.resident v (hplace.listed v hv), (evictable_iff.mp (hplace.evictable v hv)).1⟩
  have hload : ∀ {m}, u.Pending p m → m ≠ l → s.Pending p m := fun hm hne =>
    ((h.pending _).mp hm).resolve_right hne
  constructor
  case result =>
    intro m
    by_cases hm : m = l
    · rw [hm]; exact hresult
    · rw [h.load m hm]; exact hl.result m
  case entry_key =>
    intro k e hk
    rw [h.entries] at hk
    have hkey := hl.entry_key k e hk
    rw [h.keyOf (h.resident_ne (by rw [State.Resident, hkey]; exact hk))]
    exact hkey
  case entry_fresh => intro e he; exact (hl.entry_fresh e ((hres e).mp he)).trans_le h.next
  case by_offset =>
    intro o e
    rw [h.byOffset, hl.by_offset, hres]
    refine and_congr_right fun he => ?_
    rw [h.entry e (h.resident_ne he)]
  case entry_aligned =>
    intro e he
    rw [hres] at he
    rw [h.entry e (h.resident_ne he)]; exact hl.entry_aligned e he
  case entry_in =>
    intro e he
    rw [hres] at he
    rw [h.region (h.resident_ne he)]; exact hl.entry_in e he
  case entry_data =>
    intro e he
    rw [hres] at he
    rw [h.entry e (h.resident_ne he)]; exact hl.entry_data e he
  case entry_apart =>
    intro e f he hf
    rw [hres] at he hf
    rw [h.region (h.resident_ne he), h.region (h.resident_ne hf)]; exact hl.entry_apart e f he hf
  case load_key => exact h.load_key
  case load_fresh =>
    intro m hm
    rcases (h.pending m).mp hm with hm | rfl
    · exact (hl.load_fresh m hm).trans_le h.next
    · exact h.fresh
  case load_phase =>
    intro m hm
    by_cases hne : m = l
    · subst hne
      exact .inl ⟨hstate, fun hr => h.absent ((hres m).mp hr), h.unmarked⟩
    · rw [h.load m hne, hres, h.entry m hne]
      rcases hl.load_phase m (hload hm hne) with ⟨hs, hnres, hnone⟩ | hcopy
      · refine .inl ⟨hs, hnres, ?_⟩
        dsimp only
        rw [if_neg (fun hv => hnres (hvictim m hv).1), hnone, ite_self]
      · exact .inr hcopy
  case load_error =>
    intro m hm
    by_cases hne : m = l
    · rw [hne]; exact herror
    · rw [h.load m hne]; exact hl.load_error m (hload hm hne)
  case claim_aligned =>
    intro m hm
    by_cases hne : m = l
    · rw [hne, hoffset]; exact hplace.aligned
    · rw [h.load m hne]; exact hl.claim_aligned m (hload hm hne)
  case claim_in =>
    intro m hm
    by_cases hne : m = l
    · rw [hne, h.claim_self]; exact hplace.in_arena
    · rw [h.claim hl hne]; exact hl.claim_in m (hload hm hne)
  case stage_in =>
    intro m hm
    by_cases hne : m = l
    · rw [hne]; exact h.stage_in
    · rw [h.stage hl hne]; exact hl.stage_in m (hload hm hne)
  case claim_apart =>
    intro m n hm hn hmn
    by_cases hne : m = l
    · have hnl : n ≠ l := fun he => hmn (hne.trans he.symm)
      rw [hne, h.claim_self, h.claim hl hnl]
      exact hplace.clear_claims n (hload hn hnl) (hown n hnl)
    · rw [h.claim hl hne]
      by_cases hnl : n = l
      · rw [hnl, h.claim_self]
        exact (hplace.clear_claims m (hload hm hne) (hown m hne)).symm
      · rw [h.claim hl hnl]; exact hl.claim_apart m n (hload hm hne) (hload hn hnl) hmn
  case stage_apart =>
    intro m n hm hn hmn
    by_cases hne : m = l
    · have hnl : n ≠ l := fun he => hmn (hne.trans he.symm)
      rw [hne, h.stage hl hnl]
      exact h.stage_clear n hnl (hload hn hnl)
    · rw [h.stage hl hne]
      by_cases hnl : n = l
      · rw [hnl]; exact (h.stage_clear m hne (hload hm hne)).symm
      · rw [h.stage hl hnl]; exact hl.stage_apart m n (hload hm hne) (hload hn hnl) hmn
  case claim_clear =>
    intro m e hm he hem
    rw [hres] at he
    rw [h.region (h.resident_ne he)]
    by_cases hne : m = l
    · subst hne
      rw [h.claim_self, h.entry e hem]
      by_cases hv : e ∈ victims
      · exact .inl (if_pos hv)
      · exact .inr (hplace.clear_entries e he hv)
    · rw [h.claim hl hne]
      exact (hl.claim_clear m e (hload hm hne) he hem).imp_left (h.mark he hne)
  case victim =>
    intro m v hm hs hv
    by_cases hne : m = l
    · subst hne
      rw [hvictims] at hv
      obtain ⟨hvr, hready⟩ := hvictim v hv
      rw [hres, h.entry v (h.resident_ne hvr)]
      exact ⟨hvr, hready, if_pos hv⟩
    · rw [h.load m hne] at hs hv
      obtain ⟨hvr, hready, hvm⟩ := hl.victim m v (hload hm hne) hs hv
      refine ⟨(hres v).mpr hvr, ?_, h.mark hvr hne hvm⟩
      rw [h.entry v (h.resident_ne hvr)]; exact hready
  case victims_nodup =>
    intro m hm
    by_cases hne : m = l
    · rw [hne, hvictims]; exact hplace.nodup
    · rw [h.load m hne]; exact hl.victims_nodup m (hload hm hne)
  case reserved =>
    intro e m he hem
    rw [hres] at he
    rw [h.entry e (h.resident_ne he)] at hem
    dsimp only at hem
    split at hem
    next hv =>
      cases hem
      exact ⟨(h.pending l).mpr (.inr rfl), hstate, hvictims.symm ▸ hv⟩
    next =>
    split at hem
    · cases hem
    next hold =>
    have hne : m ≠ l := fun heq => hold ((h.old_iff e he).mpr (heq ▸ hem))
    obtain ⟨hm, hs, hmem⟩ := hl.reserved e m he hem
    rw [h.load m hne]
    exact ⟨(h.pending m).mpr (.inl hm), hs, hmem⟩

end Reserves

/-! ## Admission -/

section Admission
variable {t : Tid} {d : DescId} {offset stagingOffset : Nat} {victims : List EntryId}

/-- What admission needs: a placement and a staging region for a key that is
neither indexed as a load nor too large. -/
structure Admissible (p : Params) (s : State) (t : Tid) (d : DescId) (offset : Nat)
    (victims : List EntryId) (stagingOffset : Nat) : Prop where
  idle : s.Idle t
  canonical : s.canonical.find? (p.descriptor d).key = some d
  absent : s.pending.find? (p.descriptor d).key = none
  placement : Placement p s (p.descriptor d).bytes none offset victims
  staged : stagingOffset + (p.descriptor d).bytes ≤ p.config.stagingBytes
  stage_clear : ∀ l, s.Pending p l →
    Region.Apart ⟨stagingOffset, (p.descriptor d).bytes⟩ (s.stage p l)

/-- The state after admission, as a relation to the state before. -/
structure Admitted (p : Params) (s u : State) (t : Tid) (d : DescId) (offset : Nat)
    (victims : List EntryId) (stagingOffset : Nat) : Prop where
  entries : u.entries = s.entries
  byOffset : u.byOffset = s.byOffset
  byRecency : u.byRecency = s.byRecency
  canonical : u.canonical = s.canonical
  observations : u.observations = s.observations
  staging : u.staging = s.staging
  arena : u.arena = s.arena
  leases : u.leases = s.leases
  nextLease : u.nextLease = s.nextLease
  next : u.next = s.next + 1
  pendingMap : u.pending = s.pending.insert (p.descriptor d).key s.next
  calls : u.calls = s.calls.insert t (.reading d s.next 0)
  self : u.heap s.next = { desc := d }
  entry : ∀ e, e ≠ s.next → u.heap e =
    { s.heap e with
      reservedBy := if e ∈ victims then some s.next else (s.heap e).reservedBy }
  load_self : u.loads s.next =
    { result := s.next, victims := victims, stagingOffset := stagingOffset,
      arenaOffset := offset, useCount := 2 }
  load : ∀ l, l ≠ s.next → u.loads l = s.loads l
  residentBytes : u.stats.residentBytes = s.stats.residentBytes
  reservedBytes : u.stats.reservedBytes = s.stats.reservedBytes + (p.descriptor d).bytes
  stagingUsedBytes : u.stats.stagingUsedBytes = s.stats.stagingUsedBytes + (p.descriptor d).bytes
  activeLoads : u.stats.activeLoads = s.stats.activeLoads + 1

theorem Inv.load_lt_next (hi : Inv p s) {i c l} (hc : s.calls.find? i = some c)
    (hl : c.load? = some l) : l < s.next := by
  have hok := hi.calls.ok i c hc
  cases c with
  | admission d' => cases hl
  | coalesced d' m => cases hl; exact hok.2.1
  | reading d' m done => cases hl; exact hi.layout.load_fresh _ hok.1
  | readFailed d' m done error => cases hl; exact hi.layout.load_fresh _ hok.1
  | copying d' m done => cases hl; exact hi.layout.load_fresh _ hok.1

theorem reserve_spec (habsent : s.pending.find? (p.descriptor d).key = none) :
    Admitted p s (s.reserve p t d offset victims stagingOffset) t d offset victims
      stagingOffset := by
  constructor
  case pendingMap =>
    show s.pending.emplace _ _ = _
    rw [emplace, contains, habsent]; rfl
  case self => exact if_pos rfl
  case load_self => exact if_pos rfl
  case load => intro l hl; exact if_neg hl
  case entry =>
    intro e he
    refine (if_neg he).trans ?_
    split <;> rfl
  all_goals rfl

end Admission

namespace Admitted
variable {u : State} {t : Tid} {d : DescId} {offset stagingOffset : Nat} {victims : List EntryId}
variable (h : Admitted p s u t d offset victims stagingOffset)
include h

variable {e : EntryId}

theorem keyOf (he : e ≠ s.next) : u.keyOf p e = s.keyOf p e := by
  rw [State.keyOf, h.entry e he]; rfl

theorem keyOf_self : u.keyOf p s.next = (p.descriptor d).key := by rw [State.keyOf, h.self]

theorem bytesOf (he : e ≠ s.next) : u.bytesOf p e = s.bytesOf p e := by
  rw [State.bytesOf, h.entry e he]; rfl

theorem bytesOf_self : u.bytesOf p s.next = (p.descriptor d).bytes := by rw [State.bytesOf, h.self]

theorem stage_self : u.stage p s.next = ⟨stagingOffset, (p.descriptor d).bytes⟩ := by
  rw [stage, h.load_self]
  show Region.mk _ (u.bytesOf p s.next) = _
  rw [h.bytesOf_self]

theorem resident (hl : Layout p s) (e : EntryId) :
    u.Resident p e ↔ s.Resident p e ∧ e ≠ s.next := by
  by_cases he : e = s.next
  · subst he
    refine iff_of_false ?_ (fun h => h.2 rfl)
    intro hres
    rw [State.Resident, h.entries] at hres
    have hkey := hl.entry_key _ _ hres
    rw [← hkey] at hres
    exact lt_irrefl _ (hl.entry_fresh s.next hres)
  · simp only [State.Resident, h.entries, h.keyOf he, ne_eq, he, not_false_eq_true, and_true]

theorem pending (hl : Layout p s) (habsent : s.pending.find? (p.descriptor d).key = none)
    (l : LoadId) : u.Pending p l ↔ s.Pending p l ∨ l = s.next := by
  by_cases hne : l = s.next
  · subst hne
    refine iff_of_true ?_ (.inr rfl)
    rw [State.Pending, h.load_self, h.pendingMap]
    show find? _ (u.keyOf p s.next) = _
    rw [h.keyOf_self, find?_insert_self]
  · rw [State.Pending, h.load l hne, hl.result, h.keyOf hne, h.pendingMap, find?_insert,
      State.Pending, hl.result]
    split
    next hkey =>
      rw [hkey, habsent]
      simp [hne, Ne.symm hne]
    · simp [hne]

theorem reserves (hl : Layout p s) (ha : Admissible p s t d offset victims stagingOffset) :
    Reserves p s u s.next offset victims [] where
  entries := h.entries
  byOffset := h.byOffset
  next := h.next ▸ Nat.le_succ _
  fresh := h.next ▸ Nat.lt_succ_self _
  absent he := lt_irrefl _ (hl.entry_fresh _ he)
  entry e he := by rw [h.entry e he]; simp
  unmarked := by rw [h.self]
  old_iff e he := iff_of_false List.not_mem_nil fun hm =>
    lt_irrefl _ (hl.load_fresh _ (hl.reserved e _ he hm).1)
  load := h.load
  load_self := by rw [h.load_self]; exact ⟨rfl, rfl, rfl, rfl, rfl⟩
  pending := h.pending hl ha.absent
  load_key k l hk := by
    rw [h.pendingMap, find?_insert] at hk
    split at hk
    next heq => rw [← Option.some.inj hk, heq]; exact h.keyOf_self
    next =>
    have hkey := hl.load_key k l hk
    have hp : s.Pending p l := by rw [State.Pending, hl.result, hkey]; exact hk
    rw [h.keyOf (hl.load_fresh l hp).ne]; exact hkey
  stage_in := by rw [h.stage_self]; exact ha.staged
  stage_clear m _ hm := by rw [h.stage_self]; exact ha.stage_clear m hm
  placement := ⟨none, fun _ _ => Option.some_ne_none _, h.bytesOf_self ▸ ha.placement⟩

theorem call_ok (hi : Inv p s) (habsent : s.pending.find? (p.descriptor d).key = none) {i c}
    (hc : s.calls.find? i = some c) : CallOk p u c := by
  refine (hi.calls.ok i c hc).congr (fun l hl => ?_) (h.next ▸ Nat.le_succ _) h.staging h.arena
  have hne : l ≠ s.next := (hi.load_lt_next hc hl).ne
  have hload := h.load l hne
  refine ⟨by rw [h.entry l hne], ?_, by rw [hload], by rw [hload], by rw [hload], by rw [hload]⟩
  rw [h.pending hi.layout habsent]
  simp [hne]

theorem calls_inv (hi : Inv p s) (ha : Admissible p s t d offset victims stagingOffset) :
    Calls p u := by
  have hpend := h.pending hi.layout ha.absent
  have hfind : ∀ i c, u.calls.find? i = some c →
      (i = t ∧ c = .reading d s.next 0) ∨ (i ≠ t ∧ s.calls.find? i = some c) := by
    intro i c hc
    rw [h.calls] at hc
    exact calls_setCall hc
  -- no thread owned the new name before
  have hnew : ∀ i c, s.calls.find? i = some c → c.owned? ≠ some s.next := fun i c hc ho =>
    lt_irrefl _ (hi.load_lt_next hc (Call.load_of_owned ho))
  refine ⟨?_, ?_, ?_⟩
  · intro i c hc
    rcases hfind i c hc with ⟨_, rfl⟩ | ⟨_, hc⟩
    · refine ⟨(hpend _).mpr (.inr rfl), by rw [h.load_self], by rw [h.self], Nat.zero_le _, ?_⟩
      simp [bytesBefore]
    · exact h.call_ok hi ha.absent hc
  · intro i i' c c' l hc hc' ho ho'
    rcases hfind i c hc with ⟨hit, rfl⟩ | ⟨_, hc⟩ <;> rcases hfind i' c' hc' with ⟨hit', rfl⟩ | ⟨_, hc'⟩
    · rw [hit, hit']
    · cases ho; exact absurd ho' (hnew i' c' hc')
    · cases ho'; exact absurd ho (hnew i c hc)
    · exact hi.calls.owner i i' c c' l hc hc' ho ho'
  · intro l hp
    rw [h.calls]
    rcases (hpend l).mp hp with hp | rfl
    · obtain ⟨i, c, hc, ho⟩ := hi.calls.owned l hp
      have hne : i ≠ t := by
        rintro rfl
        have := ha.idle c hc
        rw [Call.load_of_owned ho] at this; cases this
      exact ⟨i, c, by rw [find?_insert_of_ne _ _ hne]; exact hc, ho⟩
    · exact ⟨t, _, find?_insert_self _ _ _, rfl⟩

theorem counters (hi : Inv p s) (habsent : s.pending.find? (p.descriptor d).key = none) :
    Counters p u := by
  have hold : ∀ k l, s.pending.find? k = some l → l ≠ s.next := fun k l hk =>
    (hi.layout.load_fresh l (by
      rw [State.Pending, hi.layout.result, hi.layout.load_key k l hk]; exact hk)).ne
  have hsum : (s.pending.insert (p.descriptor d).key s.next).sumBy (fun _ l => u.bytesOf p l) =
      (p.descriptor d).bytes + s.pending.sumBy fun _ l => s.bytesOf p l := by
    rw [sumBy_insert _ _ habsent, h.bytesOf_self]
    congr 1
    exact sumBy_congr fun k l hk => h.bytesOf (hold k l hk)
  refine ⟨?_, ?_, ?_, ?_⟩
  · rw [h.residentBytes, hi.counters.resident, h.entries]
    refine sumBy_congr fun k e hk => ?_
    have he : s.Resident p e := by rw [State.Resident, hi.layout.entry_key k e hk]; exact hk
    have hne := (hi.layout.entry_fresh e he).ne
    rw [h.bytesOf hne, h.entry e hne]
  · rw [h.reservedBytes, h.pendingMap, hsum, hi.counters.reserved, Nat.add_comm]
  · rw [h.stagingUsedBytes, h.pendingMap, hsum, hi.counters.staging, Nat.add_comm]
  · rw [h.activeLoads, h.pendingMap, sumBy_insert _ _ habsent, hi.counters.active,
      Nat.add_comm]

theorem pins (hi : Inv p s) : Pins p u := by
  have hres := h.resident hi.layout
  refine ⟨?_, ?_, ?_, ?_⟩
  · intro e
    by_cases he : e = s.next
    · subst he
      have hzero : s.leaseCount s.next = 0 := sumBy_eq_zero fun i x hx => by
        have := (hi.layout.entry_fresh _ (hi.pins.lease i x hx).1).ne
        rw [if_neg this]
      rw [h.self, leaseCount, h.leases, completionPin, h.load_self]
      show 0 = s.leaseCount s.next + 0
      rw [hzero]
    · rw [h.entry e he, leaseCount, h.leases, completionPin, h.load e he]
      exact hi.pins.count e
  · intro i x hx
    rw [h.leases] at hx
    obtain ⟨hr, hready, hdesc⟩ := hi.pins.lease i x hx
    have hne := (hi.layout.entry_fresh _ hr).ne
    rw [hres, h.entry _ hne]
    exact ⟨⟨hr, hne⟩, hready, hdesc⟩
  · intro i x hx
    rw [h.nextLease]
    exact hi.pins.lease_fresh i x (h.leases ▸ hx)
  · rintro l ⟨hs, huse⟩
    by_cases hne : l = s.next
    · rw [hne, h.load_self] at hs; cases hs
    · rw [h.load l hne] at hs huse
      obtain ⟨hr, hready⟩ := hi.pins.completing l ⟨hs, huse⟩
      rw [hres, h.entry l hne]
      exact ⟨⟨hr, hne⟩, hready⟩

theorem uses (hi : Inv p s) (ha : Admissible p s t d offset victims stagingOffset) : Uses u := by
  intro m
  have hholders : u.holders m =
      (if (Call.reading d s.next 0).load? = some m then 1 else 0) + s.holders m := by
    rw [holders, h.calls]
    exact holders_setCall ha.idle (.reading d s.next 0) m
  rw [hholders, h.pendingMap, sumBy_insert _ _ ha.absent]
  by_cases hm : m = s.next
  · subst hm
    have hzero : s.holders s.next = 0 := sumBy_eq_zero fun i c hc =>
      if_neg fun hload => lt_irrefl _ (hi.load_lt_next hc hload)
    have hnone : (s.pending.sumBy fun _ l => if l = s.next then 1 else 0) = 0 :=
      sumBy_eq_zero fun k l hk => by
        have hp : s.Pending p l := by
          rw [State.Pending, hi.layout.result, hi.layout.load_key k l hk]; exact hk
        rw [if_neg (hi.layout.load_fresh l hp).ne]
    rw [h.load_self, hzero, hnone]
    simp [Call.load?]
  · rw [h.load m hm, hi.uses m]
    simp only [Call.load?, Option.some.injEq, if_neg (Ne.symm hm), Nat.zero_add]

end Admitted

/-- **Admission keeps the invariant.** -/
theorem Inv.reserve (hi : Inv p s) {t d offset stagingOffset victims}
    (ha : Admissible p s t d offset victims stagingOffset) :
    Inv p (s.reserve p t d offset victims stagingOffset) := by
  have h : Admitted p s _ t d offset victims stagingOffset := reserve_spec ha.absent
  have hres := h.resident hi.layout
  have hpend := h.pending hi.layout ha.absent
  refine ⟨(h.reserves hi.layout ha).layout hi.layout hi.retention, ⟨?_, ?_, ?_⟩, ⟨?_, ?_⟩,
    h.counters hi ha.absent,
    h.pins hi, h.uses hi ha, h.calls_inv hi ha, ?_⟩
  · intro e he
    obtain ⟨he, hne⟩ := (hres e).mp he
    rw [h.keyOf hne, h.entry e hne, h.canonical]
    exact hi.canonical.entry e he
  · intro l hp
    rw [h.canonical]
    rcases (hpend l).mp hp with hp | rfl
    · have hne := (hi.layout.load_fresh l hp).ne
      rw [h.keyOf hne, h.entry l hne]
      exact hi.canonical.load l hp
    · rw [h.keyOf_self, h.self]; exact ha.canonical
  · intro i c hc
    rw [h.canonical]
    rw [h.calls] at hc
    rcases calls_setCall hc with ⟨_, rfl⟩ | ⟨_, hc⟩
    · exact ha.canonical
    · exact hi.canonical.call i c hc
  · intro e he
    rw [h.byRecency] at he
    have her := hi.retention.resident e he
    exact (hres e).mpr ⟨her, (hi.layout.entry_fresh e her).ne⟩
  · rw [h.byRecency]
    refine hi.retention.sorted.imp_of_mem fun {a b} ha' hb' hless => ?_
    rw [h.entry a (hi.layout.entry_fresh a (hi.retention.resident a ha')).ne,
      h.entry b (hi.layout.entry_fresh b (hi.retention.resident b hb')).ne]
    exact hless
  · intro e he hready
    obtain ⟨he, hne⟩ := (hres e).mp he
    rw [h.entry e hne] at hready ⊢
    rw [h.bytesOf hne, h.arena]
    exact hi.contents e he hready

end ExpertStreaming.RamCache
