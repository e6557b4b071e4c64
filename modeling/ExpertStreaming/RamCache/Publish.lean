import ExpertStreaming.RamCache.Replan

/-! # The RAM expert cache: publication and eviction

Victims leave the three indexes, the loaded entry takes their place, and its
bytes are copied while it is indexed but not ready. The copy stays inside the
entry's own region, which no other entry and no other reservation overlaps.
-/
namespace ExpertStreaming.RamCache
open Lib State List

variable {p : Params} {s : State} {l : LoadId}

/-! ## Placing an entry that is not indexed yet -/

theorem placeResult_heap (hres : (s.loads l).result = l) (e : EntryId) :
    (s.placeResult l).heap e =
      if e = l then { s.heap e with
        arenaOffset := (s.loads l).arenaOffset, data := some (s.loads l).arenaOffset,
        ready := false }
      else s.heap e := by
  simp only [placeResult, modifyEntry, hres]

theorem placeResult_desc (s : State) (l : LoadId) (e : EntryId) :
    ((s.placeResult l).heap e).desc = (s.heap e).desc := by
  simp only [placeResult, modifyEntry]
  split <;> rfl

theorem placeResult_keyOf (p : Params) (s : State) (l : LoadId) (e : EntryId) :
    (s.placeResult l).keyOf p e = s.keyOf p e := by
  simp only [keyOf, placeResult_desc]

theorem placeResult_resident (e : EntryId) :
    (s.placeResult l).Resident p e ↔ s.Resident p e := by
  simp only [State.Resident, placeResult_keyOf]; rfl

theorem placeResult_pending (m : LoadId) :
    (s.placeResult l).Pending p m ↔ s.Pending p m := by
  simp only [State.Pending, placeResult_keyOf]; rfl

theorem quiet_placeResult (hres : (s.loads l).result = l)
    (hnot : ∀ k, s.entries.find? k ≠ some l) : Quiet s (s.placeResult l) := by
  have hheap := placeResult_heap hres
  have hsame : ∀ {k e}, s.entries.find? k = some e → (s.placeResult l).heap e = s.heap e := by
    intro k e hk
    rw [hheap, if_neg]
    rintro rfl
    exact hnot k hk
  constructor
  case toSameLayout =>
    constructor
    case desc => exact placeResult_desc s l
    case data => intro k e hk; rw [hsame hk]
    case arenaOffset => intro k e hk; rw [hsame hk]
    case ready => intro k e hk; rw [hsame hk]
    case reservedBy => intro e; rw [hheap]; split <;> rfl
    all_goals intros; rfl
  case canonical => exact fun k d hk => hk
  case pins => intro e; rw [hheap]; split <;> rfl
  all_goals intros; rfl

theorem Inv.placeResult (hi : Inv p s) (hnot : ¬ s.Resident p l) :
    Inv p (s.placeResult l) := by
  have hquiet := quiet_placeResult (hi.layout.result l) fun k hk =>
    hnot (hi.layout.resident_of_find hk)
  refine hi.quiet hquiet (hi.retention.transfer hquiet.toSameLayout rfl fun a b => ?_)
  rw [placeResult_heap (hi.layout.result l), placeResult_heap (hi.layout.result l)]
  split <;> split <;> rfl

/-! ## Retiring entries -/

/-- The three indexes agree, and the byte count is theirs. -/
structure Indexed (p : Params) (s : State) : Prop where
  entry_key : ∀ k e, s.entries.find? k = some e → s.keyOf p e = k
  by_offset : ∀ o e, s.byOffset.find? o = some e ↔ s.Resident p e ∧ (s.heap e).arenaOffset = o
  retention : Retention p s
  resident : s.stats.residentBytes =
    s.entries.sumBy fun _ e => if (s.heap e).ready then s.bytesOf p e else 0

theorem Inv.indexed (hi : Inv p s) : Indexed p s :=
  ⟨hi.layout.entry_key, hi.layout.by_offset, hi.retention, hi.counters.resident⟩

theorem retire_resident {v} (hv : s.Resident p v) (e : EntryId) :
    (s.retire p v).Resident p e ↔ s.Resident p e ∧ e ≠ v := by
  show (s.entries.erase (s.keyOf p v)).find? (s.keyOf p e) = some e ↔ _
  rw [OrdMap.find?_erase]
  constructor
  · intro h
    split at h
    · cases h
    next hne => exact ⟨h, fun he => hne (he ▸ rfl)⟩
  · intro ⟨he, hne⟩
    rw [if_neg]
    · exact he
    · intro hkey
      exact hne (he.eq_of_key hv hkey)

theorem retire_byRecency (hr : Retention p s) {v} (hv : s.Resident p v) :
    (s.retire p v).byRecency = s.byRecency.filter (· ≠ v) := by
  apply filter_congr
  intro e he
  by_cases hev : e = v
  · rw [hev, lruEquiv_self]; simp
  · have hne : s.lruEquiv p v e ≠ true := fun h => hev (hv.eq_of_equiv (hr.resident e he) h).symm
    simp [hev, hne]

theorem Indexed.retire (hx : Indexed p s) {v} (hv : s.Resident p v)
    (hready : (s.heap v).ready = true) : Indexed p (s.retire p v) where
  entry_key k e hk := by
    rw [State.retire, OrdMap.find?_erase] at hk
    split at hk
    · cases hk
    · exact hx.entry_key k e hk
  by_offset o e := by
    rw [retire_resident hv]
    show (s.byOffset.erase (s.heap v).arenaOffset).find? o = some e ↔ _
    rw [OrdMap.find?_erase]
    -- an offset names one entry
    have hunique : ∀ f, s.Resident p f → (s.heap f).arenaOffset = (s.heap v).arenaOffset →
        f = v := by
      intro f hf ho
      have h₁ := (hx.by_offset _ f).mpr ⟨hf, ho⟩
      rw [(hx.by_offset _ v).mpr ⟨hv, rfl⟩] at h₁
      exact (Option.some.inj h₁).symm
    constructor
    · intro h
      split at h
      · cases h
      next hne =>
        obtain ⟨he, ho⟩ := (hx.by_offset o e).mp h
        exact ⟨⟨he, fun hev => hne (by rw [← ho, hev])⟩, ho⟩
    · intro ⟨⟨he, hne⟩, ho⟩
      rw [if_neg (fun h => hne (hunique e he (ho.trans h)))]
      exact (hx.by_offset o e).mpr ⟨he, ho⟩
  retention := by
    refine ⟨?_, ?_⟩
    · intro e he
      rw [retire_byRecency hx.retention hv, mem_filter] at he
      exact (retire_resident hv e).mpr ⟨hx.retention.resident e he.1, by simpa using he.2⟩
    · rw [retire_byRecency hx.retention hv]
      exact hx.retention.sorted.filter _
  resident := by
    have hsum := OrdMap.sumBy_erase
      (fun _ e => if (s.heap e).ready then s.bytesOf p e else 0) hv
    rw [if_pos hready] at hsum
    show u64Sub s.stats.residentBytes (s.bytesOf p v) = (s.entries.erase (s.keyOf p v)).sumBy _
    rw [hx.resident, hsum, u64Sub_of_le (Nat.le_add_right _ _), Nat.add_sub_cancel_left]
    rfl

/-- What retiring a list of victims does. -/
structure Retired (p : Params) (s u : State) (victims : List EntryId) : Prop where
  indexed : Indexed p u
  resident : ∀ e, u.Resident p e ↔ s.Resident p e ∧ e ∉ victims
  byRecency : u.byRecency = s.byRecency.filter (· ∉ victims)
  reservedBytes : u.stats.reservedBytes = s.stats.reservedBytes
  stagingUsedBytes : u.stats.stagingUsedBytes = s.stats.stagingUsedBytes
  activeLoads : u.stats.activeLoads = s.stats.activeLoads
  rest : u = { s with
    entries := u.entries, byOffset := u.byOffset, byRecency := u.byRecency, stats := u.stats }

theorem retireVictims_spec :
    ∀ (victims : List EntryId) (s : State), Indexed p s →
      (∀ v ∈ victims, s.Resident p v ∧ (s.heap v).ready = true) → victims.Nodup →
      Retired p s (s.retireVictims p victims) victims
  | [], s, hx, _, _ => ⟨hx, by simp [State.retireVictims], by simp [State.retireVictims], rfl, rfl,
      rfl, rfl⟩
  | v :: rest, s, hx, hvs, hnodup => by
    obtain ⟨hv, hready⟩ := hvs v mem_cons_self
    obtain ⟨hfirst, hnodup⟩ := nodup_cons.mp hnodup
    obtain ⟨u, hu⟩ : ∃ u, u = (s.retire p v).modifyStats fun x =>
      { x with evictions := x.evictions + 1 } := ⟨_, rfl⟩
    have hxu : Indexed p u := by
      have hx' := hx.retire hv hready
      rw [hu]
      exact ⟨hx'.entry_key, hx'.by_offset, ⟨hx'.retention.resident, hx'.retention.sorted⟩,
        hx'.resident⟩
    have hru : ∀ e, u.Resident p e ↔ s.Resident p e ∧ e ≠ v := by
      intro e; rw [hu]; exact retire_resident hv e
    have hou : u.byRecency = s.byRecency.filter (· ≠ v) := by
      rw [hu]; exact retire_byRecency hx.retention hv
    have ih := retireVictims_spec rest u hxu (fun w hw => by
      obtain ⟨hwr, hwready⟩ := hvs w (mem_cons_of_mem _ hw)
      refine ⟨(hru w).mpr ⟨hwr, fun he => hfirst (he ▸ hw)⟩, ?_⟩
      rw [hu]; exact hwready) hnodup
    have hstep : s.retireVictims p (v :: rest) = u.retireVictims p rest := by rw [hu]; rfl
    rw [hstep]
    refine ⟨ih.indexed, ?_, ?_, ?_, ?_, ?_, ?_⟩
    · intro e
      rw [ih.resident, hru, mem_cons, not_or, and_assoc]
    · rw [ih.byRecency, hou, filter_filter]
      congr 1
      funext e
      simp [Bool.and_comm]
    · rw [ih.reservedBytes, hu]; rfl
    · rw [ih.stagingUsedBytes, hu]; rfl
    · rw [ih.activeLoads, hu]; rfl
    · rw [ih.rest, hu]; rfl

theorem retire_insert {k} (l : EntryId) {v} (h : s.keyOf p v ≠ k) :
    { s with entries := s.entries.insert k l }.retire p v =
      { s.retire p v with entries := (s.retire p v).entries.insert k l } := by
  simp only [retire, ← OrdMap.insert_erase_comm s.entries l (Ne.symm h)]
  rfl

theorem retireVictims_insert (k : ExpertKey) (l : EntryId) :
    ∀ (victims : List EntryId) (s : State), (∀ v ∈ victims, s.keyOf p v ≠ k) →
      { s with entries := s.entries.insert k l }.retireVictims p victims =
        { s.retireVictims p victims with
          entries := (s.retireVictims p victims).entries.insert k l }
  | [], s, _ => rfl
  | v :: rest, s, hkeys => by
    have ih := retireVictims_insert k l rest ((s.retire p v).modifyStats fun x =>
      { x with evictions := x.evictions + 1 }) fun w hw => hkeys w (mem_cons_of_mem _ hw)
    have hstep := retire_insert l (hkeys v mem_cons_self)
    refine Eq.trans ?_ ih
    show State.retireVictims p rest (State.modifyStats (State.retire p _ v) _) = _
    rw [hstep]
    rfl

/-! ## Removing entries nobody uses -/

theorem Pins.eq_zero_of_lease (hp : Pins p s) {i x} (hx : s.leases.find? i = some x) :
    (s.heap x.entry).pins ≠ 0 := by
  have hle := OrdMap.le_sumBy (fun _ y => if y.entry = x.entry then 1 else 0) hx
  have hcount := hp.count x.entry
  rw [if_pos rfl] at hle
  simp only [leaseCount] at hcount
  omega

theorem Pins.ne_zero_of_completing (hp : Pins p s) {m} (hm : s.Completing m) :
    (s.heap m).pins ≠ 0 := by
  have hcount := hp.count m
  unfold State.Completing at hm
  rw [completionPin, if_pos hm] at hcount
  omega

theorem Inv.retired (hi : Inv p s) {u gone} (h : Retired p s u gone)
    (hgone : ∀ v ∈ gone, (s.heap v).ready = true ∧ (s.heap v).reservedBy = none ∧
      (s.heap v).pins = 0) : Inv p u := by
  obtain ⟨hx, hres, -, hreserved, hstaging, hactive, hrest⟩ := h
  -- only the indexes and the counters differ, everything else is the old state's
  obtain ⟨entries, byOffset, byRecency, stats, rfl⟩ : ∃ entries byOffset byRecency stats, u =
      { s with entries, byOffset, byRecency, stats } := ⟨_, _, _, _, hrest⟩
  have hold : ∀ e, State.Resident p _ e → s.Resident p e := fun e he => ((hres e).mp he).1
  have hstay : ∀ e, s.Resident p e → (s.heap e).pins ≠ 0 → State.Resident p _ e := fun e he hp =>
    (hres e).mpr ⟨he, fun hg => hp (hgone e hg).2.2⟩
  refine ⟨?_, ?_, hx.retention, ⟨hx.resident, ?_, ?_, ?_⟩, ?_, hi.uses, ?_, ?_⟩
  · exact
    { hi.layout with
      entry_key := hx.entry_key
      by_offset := hx.by_offset
      entry_fresh := fun e he => hi.layout.entry_fresh e (hold e he)
      entry_aligned := fun e he => hi.layout.entry_aligned e (hold e he)
      entry_in := fun e he => hi.layout.entry_in e (hold e he)
      entry_data := fun e he => hi.layout.entry_data e (hold e he)
      entry_apart := fun e f he hf => hi.layout.entry_apart e f (hold e he) (hold f hf)
      claim_clear := fun m e hm he => hi.layout.claim_clear m e hm (hold e he)
      reserved := fun e m he => hi.layout.reserved e m (hold e he)
      load_phase := fun m hm => by
        rcases hi.layout.load_phase m hm with ⟨hs, hnr, hnone⟩ | ⟨hs, hr, hready, hoff⟩
        · exact .inl ⟨hs, fun hr => hnr (hold m hr), hnone⟩
        · refine .inr ⟨hs, (hres m).mpr ⟨hr, fun hg => ?_⟩, hready, hoff⟩
          rw [(hgone m hg).1] at hready; cases hready
      victim := fun m v hm hs hv => by
        obtain ⟨hr, hready, hvm⟩ := hi.layout.victim m v hm hs hv
        refine ⟨(hres v).mpr ⟨hr, fun hg => ?_⟩, hready, hvm⟩
        rw [(hgone v hg).2.1] at hvm; cases hvm }
  · exact { hi.canonical with entry := fun e he => hi.canonical.entry e (hold e he) }
  · exact hreserved.trans hi.counters.reserved
  · exact hstaging.trans hi.counters.staging
  · exact hactive.trans hi.counters.active
  · refine { hi.pins with lease := fun i x hx => ?_, completing := fun m hm => ?_ }
    · obtain ⟨hr, hready⟩ := hi.pins.lease i x hx
      exact ⟨hstay _ hr (hi.pins.eq_zero_of_lease hx), hready⟩
    · obtain ⟨hr, hready⟩ := hi.pins.completing m hm
      exact ⟨hstay m hr (hi.pins.ne_zero_of_completing hm), hready⟩
  · refine { hi.calls with ok := fun i c hc => ?_ }
    exact (hi.calls.ok i c hc).congr (fun m _ => ⟨rfl, Iff.rfl, rfl, rfl, rfl, rfl⟩) le_rfl rfl rfl
  · exact fun e he => hi.contents e (hold e he)

theorem eraseKey_cases (hi : Inv p s) (key : ExpertKey) :
    s.eraseKey p key = (s, .erased false) ∨
      ∃ e, s.eraseKey p key = (s.retire p e, .erased true) ∧ Retired p s (s.retire p e) [e] ∧
        (s.heap e).ready = true ∧ (s.heap e).reservedBy = none ∧ (s.heap e).pins = 0 := by
  unfold eraseKey
  split
  · exact .inl rfl
  next e hfind =>
  split
  · exact .inl rfl
  next hfree =>
  simp only [Bool.not_eq_true', not_or, Bool.not_eq_false, ne_eq, not_not] at hfree
  obtain ⟨hready, hmark, hpins⟩ := hfree
  have he : s.Resident p e := by
    rw [State.Resident, hi.layout.entry_key key e hfind]; exact hfind
  refine .inr ⟨e, rfl, ⟨hi.indexed.retire he hready, fun f => ?_, ?_, rfl, rfl, rfl, rfl⟩,
    hready, hmark, hpins⟩
  · rw [retire_resident he]; simp
  · rw [retire_byRecency hi.retention he]; simp

theorem Inv.eraseKey (hi : Inv p s) (key : ExpertKey) : Inv p (s.eraseKey p key).1 := by
  rcases eraseKey_cases hi key with heq | ⟨e, heq, hretired, hfree⟩
  · rw [heq]; exact hi
  · rw [heq]
    exact hi.retired hretired fun v hv => by rw [mem_singleton.mp hv]; exact hfree

def State.emptied (s : State) : State :=
  { s with
    byOffset := .empty
    byRecency := []
    entries := .empty
    observations := .empty
    frequencyClock := 0
    stats := { s.stats with residentBytes := 0 } }

theorem clear_cases (p : Params) (s : State) :
    s.clear = (s, .threw .clearWithFills) ∨ s.clear = (s, .threw .clearWithLeases) ∨
      s.clear = (s.emptied, .cleared) ∧ (∀ m, ¬ s.Pending p m) ∧
        ∀ e, s.Resident p e → (s.heap e).pins = 0 := by
  unfold clear
  split
  · exact .inl rfl
  next hempty =>
  split
  · exact .inr (.inl rfl)
  next hpins =>
  refine .inr (.inr ⟨rfl, fun m hm => ?_, fun e he => ?_⟩)
  · rw [State.Pending, OrdMap.isEmpty_iff.mp (by simpa using hempty)] at hm
    cases hm
  · have hmem : e ∈ s.entries.values := OrdMap.mem_values.mpr ⟨_, he⟩
    simp only [any_eq_true, decide_eq_true_eq, not_exists, not_and, not_not] at hpins
    exact hpins e hmem

theorem Inv.clear (hi : Inv p s) : Inv p s.clear.1 := by
  rcases clear_cases p s with heq | heq | ⟨heq, hnopend, hzero⟩
  · rw [heq]; exact hi
  · rw [heq]; exact hi
  rw [heq]
  have hnolease : ∀ i x, s.leases.find? i ≠ some x := fun i x hx =>
    hi.pins.eq_zero_of_lease hx (hzero _ (hi.pins.lease i x hx).1)
  have hnodone : ∀ m, ¬ s.Completing m := fun m hm =>
    hi.pins.ne_zero_of_completing hm (hzero m (hi.pins.completing m hm).1)
  refine ⟨?_, ⟨?_, ?_, hi.canonical.call⟩, ⟨?_, ?_⟩,
    ⟨rfl, hi.counters.reserved, hi.counters.staging, hi.counters.active⟩,
    ⟨hi.pins.count, fun i x hx => absurd hx (hnolease i x), hi.pins.lease_fresh,
      fun m hm => absurd hm (hnodone m)⟩, hi.uses, ⟨?_, hi.calls.owner, ?_⟩, ?_⟩
  · exact .of_idle hi.layout.result (fun _ => rfl) (fun _ => rfl) hi.layout.load_key hnopend
  · intro e he; cases he
  · intro m hm; exact absurd hm (hnopend m)
  · intro e he; cases he
  · exact List.Pairwise.nil
  · intro i c hc
    exact (hi.calls.ok i c hc).congr (fun m _ => ⟨rfl, Iff.rfl, rfl, rfl, rfl, rfl⟩) le_rfl
      rfl rfl
  · intro m hm; exact absurd hm (hnopend m)
  · intro e he; cases he

end ExpertStreaming.RamCache
