import ExpertStreaming.RamCache.Plan

/-! # Placement is sound and complete

A plan's offset is aligned, inside the arena, clear of every reservation, and
clear of every entry the plan does not evict. When the planner reports no plan,
evicting every candidate would leave no aligned room either. Both follow from
what the search's free spans denote as sets of addresses.
-/
namespace ExpertStreaming.RamCache
open Lib List

/-! ## One span -/

variable {bytes o capacity : Nat} {l : List Span} {v : ArenaView}

theorem alignedFit_sound {alignment start stop} (hpos : 0 < alignment)
    (h : alignedFit alignment bytes start stop = some o) :
    alignment ∣ o ∧ start ≤ o ∧ o + bytes ≤ stop := by
  unfold alignedFit at h
  split at h
  · cases h
  next sum hsum =>
  have hs := add_of_addChecked hsum
  dsimp only at h
  split at h
  · cases h
  next hroom =>
  obtain rfl := Option.some.inj h
  have hdiv := Nat.div_add_mod sum alignment
  have hmod := Nat.mod_lt sum hpos
  rw [Nat.mul_comm] at hdiv
  exact ⟨Nat.dvd_mul_left _ _, by omega, by omega⟩

theorem alignedFit_isSome {alignment start stop} (hpos : 0 < alignment)
    (hmax : o + (alignment - 1) ≤ u64Max) (hdvd : alignment ∣ o) (hstart : start ≤ o)
    (hstop : o + bytes ≤ stop) : (alignedFit alignment bytes start stop).isSome := by
  have hsum : addChecked start (alignment - 1) = some (start + (alignment - 1)) :=
    (addChecked_eq_some (by omega)).mpr ⟨rfl, by omega⟩
  rw [alignedFit, hsum]
  -- rounding up lands at or below any aligned address past the start
  have hle : (start + (alignment - 1)) / alignment * alignment ≤ o := by
    obtain ⟨k, rfl⟩ := hdvd
    rw [Nat.mul_comm alignment k]
    apply Nat.mul_le_mul_right
    have hlt : start + (alignment - 1) < (k + 1) * alignment := by
      rw [Nat.add_mul, Nat.mul_comm k alignment]; omega
    exact Nat.lt_succ_iff.mp ((Nat.div_lt_iff_lt_mul hpos).mpr hlt)
  simp only
  rw [if_neg (by omega)]
  rfl

theorem aligned_room (hcap : capacity ≤ u64Max) (hpos : 0 < bytes)
    (hdvd : 64 ∣ o) (hin : o + bytes ≤ capacity) : o + (64 - 1) ≤ u64Max := by
  unfold u64Max at *
  omega

/-! ## Sorted intervals -/

instance : IsTrans Span intervalLe where
  trans a b c hab hbc := by unfold intervalLe at *; omega

instance : Std.Total intervalLe where
  total a b := by unfold intervalLe; omega

theorem sorted_sortIntervals (l : List Span) :
    (sortIntervals l).Pairwise fun a b => a.1 ≤ b.1 :=
  (pairwise_insertionSort intervalLe l).imp fun {a b} h => by
    unfold intervalLe at h; omega

@[simp] theorem mem_sortIntervals {i} : i ∈ sortIntervals l ↔ i ∈ l :=
  (perm_insertionSort intervalLe l).mem_iff

@[simp] theorem cells_sortIntervals (l : List Span) : cells (sortIntervals l) = cells l := by
  ext x; simp [cells]

/-- Intervals are well placed when they run forward and end inside the range. -/
def Placed (capacity : Nat) (l : List Span) : Prop := ∀ i ∈ l, i.1 ≤ i.2 ∧ i.2 ≤ capacity

theorem Placed.tail {i} (h : Placed capacity (i :: l)) :
    Placed capacity l := fun j hj => h j (mem_cons_of_mem _ hj)

theorem Placed.head {i} (h : Placed capacity (i :: l)) :
    ¬(i.1 > i.2 ∨ i.2 > capacity) := by
  have := h i mem_cons_self; omega

theorem Placed.sort (h : Placed capacity l) :
    Placed capacity (sortIntervals l) := fun i hi => h i (mem_sortIntervals.mp hi)

theorem scanFit_ok {alignment bytes capacity} :
    ∀ (l : List Span) (cursor : Nat), Placed capacity l →
      ∃ r, scanFit alignment bytes capacity cursor l = .ok r
  | [], cursor, _ => ⟨_, rfl⟩
  | i :: rest, cursor, h => by
    unfold scanFit
    rw [if_neg h.head]
    split
    · exact ⟨_, rfl⟩
    · exact scanFit_ok rest _ h.tail

theorem scanFit_sound {alignment bytes capacity o} (hpos : 0 < alignment) :
    ∀ (l : List Span) (cursor : Nat), (l.Pairwise fun a b => a.1 ≤ b.1) →
      scanFit alignment bytes capacity cursor l = .ok (some o) →
      alignment ∣ o ∧ cursor ≤ o ∧ o + bytes ≤ capacity ∧
        ∀ i ∈ l, i.2 ≤ o ∨ o + bytes ≤ i.1
  | [], cursor, _, h => by
    obtain ⟨hdvd, hcur, hcap⟩ := alignedFit_sound hpos (Except.ok.inj h)
    exact ⟨hdvd, hcur, hcap, by simp⟩
  | i :: rest, cursor, hsorted, h => by
    obtain ⟨hfirst, hsorted⟩ := pairwise_cons.mp hsorted
    unfold scanFit at h
    split at h
    · cases h
    next hplaced =>
    split at h
    next offset hfit =>
      obtain rfl := Option.some.inj (Except.ok.inj h)
      obtain ⟨hdvd, hcur, hroom⟩ := alignedFit_sound hpos hfit
      refine ⟨hdvd, hcur, by omega, ?_⟩
      intro j hj
      rcases mem_cons.mp hj with rfl | hj
      · exact .inr hroom
      · exact .inr (hroom.trans (hfirst j hj))
    next =>
    obtain ⟨hdvd, hcur, hcap, hclear⟩ := scanFit_sound hpos rest _ hsorted h
    refine ⟨hdvd, (le_max_left _ _).trans hcur, hcap, ?_⟩
    intro j hj
    rcases mem_cons.mp hj with rfl | hj
    · exact .inl ((le_max_right _ _).trans hcur)
    · exact hclear j hj

theorem denseTail_le {capacity} :
    ∀ (l : List Span) (tail t : Nat), denseTail capacity tail l = some t →
      tail ≤ t ∧ ∀ i ∈ l, i.2 ≤ t
  | [], tail, t, h => by
    obtain rfl := Option.some.inj h
    exact ⟨le_rfl, by simp⟩
  | i :: rest, tail, t, h => by
    unfold denseTail at h
    split at h
    · cases h
    next =>
    split at h
    · cases h
    next =>
    split at h
    · cases h
    next =>
    obtain ⟨htail, hrest⟩ := denseTail_le rest _ t h
    refine ⟨(le_max_left _ _).trans htail, ?_⟩
    intro j hj
    rcases mem_cons.mp hj with rfl | hj
    · exact (le_max_right _ _).trans htail
    · exact hrest j hj

/-! ## Free addresses as sets -/

theorem not_mem_cells_of_lt {a x} (hl : ∀ i ∈ l, a ≤ i.1) (hx : x < a) :
    x ∉ cells l := by
  intro ⟨i, hi, hix, _⟩
  have := hl i hi
  omega

section Spans
variable {place : Nat → Nat → Option Nat}

theorem freeGaps_ok {capacity} :
    ∀ (l : List Span) (cursor : Nat) (gaps : FreeSpans place), Placed capacity l →
      ∃ r, freeGaps capacity cursor l gaps = .ok r
  | [], cursor, gaps, _ => ⟨_, rfl⟩
  | i :: rest, cursor, gaps, h => by
    unfold freeGaps
    rw [if_neg h.head]
    exact freeGaps_ok rest _ _ h.tail

theorem freeGaps_free {capacity} :
    ∀ (l : List Span) (cursor : Nat) (gaps r : FreeSpans place),
      (l.Pairwise fun a b => a.1 ≤ b.1) → freeGaps capacity cursor l gaps = .ok r →
      r.free = gaps.free ∪ {x | cursor ≤ x ∧ x < capacity ∧ x ∉ cells l}
  | [], cursor, gaps, r, _, h => by
    obtain rfl := Except.ok.inj h
    rw [FreeSpans.free_insert]
    congr 1
    ext x
    simp
  | i :: rest, cursor, gaps, r, hsorted, h => by
    obtain ⟨hfirst, hsorted⟩ := pairwise_cons.mp hsorted
    unfold freeGaps at h
    split at h
    · cases h
    next hplaced =>
    have hrest : ∀ x, x < i.1 → x ∉ cells rest := fun x => not_mem_cells_of_lt hfirst
    have hhere : (if i.1 > cursor then gaps.insert cursor i.1 else gaps).free =
        gaps.free ∪ Set.Ico cursor i.1 := by
      split
      · rw [FreeSpans.free_insert]
      next hge => rw [Set.Ico_eq_empty (by omega), Set.union_empty]
    rw [freeGaps_free rest _ _ r hsorted h, hhere, Set.union_assoc]
    congr 1
    -- below the interval nothing later starts; past it the scan goes on
    ext x
    have := hrest x
    simp only [Set.mem_union, Set.mem_Ico, Set.mem_ofPred_eq, cells_cons]
    grind

theorem joinTouching_spec :
    ∀ (l : List Span) (last : Span), ((last :: l).Pairwise fun a b => a.1 ≤ b.1) →
      cells (joinTouching last l) = cells (last :: l) ∧
        (joinTouching last l).Pairwise (fun a b => a.1 ≤ b.1) ∧
        ∀ i ∈ joinTouching last l, last.1 ≤ i.1
  | [], last, _ => ⟨rfl, by simp [joinTouching], by simp [joinTouching]⟩
  | i :: rest, last, hsorted => by
    obtain ⟨hlast, hsorted'⟩ := pairwise_cons.mp hsorted
    obtain ⟨hfirst, hrest⟩ := pairwise_cons.mp hsorted'
    have hli := hlast i mem_cons_self
    unfold joinTouching
    split
    next htouch =>
      obtain ⟨hcells, hsorted, hlower⟩ := joinTouching_spec rest (last.1, max last.2 i.2)
        (pairwise_cons.mpr ⟨fun j hj => hlast j (mem_cons_of_mem _ hj), hrest⟩)
      refine ⟨?_, hsorted, hlower⟩
      have hunion : Set.Ico last.1 (max last.2 i.2) = Set.Ico last.1 last.2 ∪ Set.Ico i.1 i.2 := by
        ext x
        simp only [Set.mem_Ico, Set.mem_union, lt_max_iff]
        omega
      rw [hcells, cells_cons, cells_cons, cells_cons, hunion, Set.union_assoc]
    next =>
    obtain ⟨hcells, hsorted, hlower⟩ := joinTouching_spec rest i hsorted'
    refine ⟨by rw [cells_cons, hcells, cells_cons last], ?_, ?_⟩
    · exact pairwise_cons.mpr ⟨fun j hj => hli.trans (hlower j hj), hsorted⟩
    · intro j hj
      rcases mem_cons.mp hj with rfl | hj
      · exact le_rfl
      · exact hli.trans (hlower j hj)

theorem carve_free {stop} :
    ∀ (l : List Span) (start : Nat) (gaps : FreeSpans place),
      (l.Pairwise fun a b => a.1 ≤ b.1) →
      (carve stop start l gaps).free = gaps.free ∪ {x | start ≤ x ∧ x < stop ∧ x ∉ cells l}
  | [], start, gaps, _ => by
    rw [carve, FreeSpans.free_insert]
    congr 1
    ext x
    simp
  | b :: rest, start, gaps, hsorted => by
    obtain ⟨hfirst, hsorted⟩ := pairwise_cons.mp hsorted
    have hrest : ∀ x, x < b.1 → x ∉ cells rest := fun x => not_mem_cells_of_lt hfirst
    have hhere : (if start < b.1 then gaps.insert start (min stop b.1) else gaps).free =
        gaps.free ∪ Set.Ico start (min stop b.1) := by
      split
      · rw [FreeSpans.free_insert]
      next hge => rw [Set.Ico_eq_empty (by omega), Set.union_empty]
    unfold carve
    dsimp only
    split
    next hbehind =>
      rw [carve_free rest start gaps hsorted]
      congr 1
      ext x
      simp only [Set.mem_ofPred_eq, cells_cons, Set.mem_union, Set.mem_Ico]
      grind
    next =>
    split
    next hahead =>
      rw [FreeSpans.free_insert]
      congr 1
      ext x
      have := hrest x
      simp only [Set.mem_ofPred_eq, cells_cons, Set.mem_union, Set.mem_Ico]
      grind
    next =>
    split
    · rw [hhere]
      congr 1
      ext x
      have := hrest x
      simp only [Set.mem_ofPred_eq, cells_cons, Set.mem_union, Set.mem_Ico]
      grind
    next =>
    rw [carve_free rest _ _ hsorted, hhere, Set.union_assoc]
    congr 1
    ext x
    have := hrest x
    simp only [Set.mem_ofPred_eq, cells_cons, Set.mem_union, Set.mem_Ico]
    grind

end Spans

/-! ## The planner -/

/-- What the planner relies on: entries in order without overlap, and everything in the arena. -/
structure ArenaView.WF (v : ArenaView) : Prop where
  capacity_le : v.capacity ≤ u64Max
  resident_order : v.resident.Pairwise fun a b => a.stop ≤ b.off
  resident_in : ∀ r ∈ v.resident, r.stop ≤ v.capacity
  reservations_in : ∀ r ∈ v.reservations, r.stop ≤ v.capacity
  candidates_resident : ∀ c ∈ v.candidates, c.2 ∈ v.resident

/-- The addresses usable once `taken` is evicted: not reserved, and in no entry that stays. -/
def ArenaView.openCells (v : ArenaView) (taken : List (EntryId × Region)) : Set Nat :=
  {x | x < v.capacity ∧ (∀ r ∈ v.reservations, ¬ r.Contains x) ∧
    ∀ r ∈ v.resident, r.Contains x → ∃ c ∈ taken, c.2.Contains x}

theorem mem_cells_interval {l : List Region} {x : Nat} :
    x ∈ cells (l.map interval) ↔ ∃ r ∈ l, r.Contains x := by
  simp [cells, interval, Region.Contains]

theorem ArenaView.openCells_subset (v : ArenaView) (taken : List (EntryId × Region)) :
    v.openCells taken ⊆ Set.Iio v.capacity := fun _ hx => hx.1

variable {gaps : FreeSpans (alignedFit 64 bytes)}

theorem ArenaView.freeGaps_openCells (h : freeGaps v.capacity 0 v.occupied (.empty _) = .ok gaps) :
    gaps.free = v.openCells [] := by
  rw [freeGaps_free _ _ _ _ (sorted_sortIntervals _) h, FreeSpans.free_empty, Set.empty_union]
  ext x
  simp only [cells_sortIntervals, cells_append, Set.mem_ofPred_eq, Set.mem_union,
    mem_cells_interval, ArenaView.openCells]
  grind

theorem ArenaView.blocked_spec (v : ArenaView) :
    cells v.blocked = cells (v.reservations.map interval) ∧
      v.blocked.Pairwise fun a b => a.1 ≤ b.1 := by
  have hsorted := sorted_sortIntervals (v.reservations.map interval)
  have hcells := cells_sortIntervals (v.reservations.map interval)
  unfold ArenaView.blocked
  cases hs : sortIntervals (v.reservations.map interval) with
  | nil => rw [hs] at hcells; exact ⟨hcells, List.Pairwise.nil⟩
  | cons first rest =>
    rw [hs] at hsorted hcells
    obtain ⟨hjoin, hpair, _⟩ := joinTouching_spec rest first hsorted
    exact ⟨hjoin.trans hcells, hpair⟩

namespace ArenaView.WF
variable {v : ArenaView} (hv : v.WF)
include hv

theorem placed_occupied : Placed v.capacity v.occupied := by
  apply Placed.sort
  intro i hi
  rw [← map_append] at hi
  obtain ⟨r, hr, rfl⟩ := mem_map.mp hi
  refine ⟨Nat.le_add_right _ _, ?_⟩
  rcases mem_append.mp hr with hr | hr
  · exact hv.resident_in r hr
  · exact hv.reservations_in r hr

theorem carve_openCells {gaps : FreeSpans (alignedFit 64 bytes)} {taken : List (EntryId × Region)}
    {c : EntryId × Region} (hc : c ∈ v.candidates) (hgaps : gaps.free = v.openCells taken) :
    (carve c.2.stop c.2.off v.blocked gaps).free = v.openCells (taken ++ [c]) := by
  obtain ⟨hcells, hsorted⟩ := v.blocked_spec
  have hin := hv.resident_in _ (hv.candidates_resident c hc)
  rw [carve_free _ _ _ hsorted, hgaps, hcells]
  ext x
  simp only [Set.mem_union, Set.mem_ofPred_eq, mem_cells_interval, ArenaView.openCells,
    mem_append, mem_singleton]
  by_cases hx : c.2.Contains x
  · have hlt : x < v.capacity := lt_of_lt_of_le hx.2 hin
    have hrange : c.2.off ≤ x ∧ x < c.2.stop := hx
    grind
  · have hrange : ¬ (c.2.off ≤ x ∧ x < c.2.stop) := hx
    grind

end ArenaView.WF

theorem firstFit_aligned
    (h : gaps.firstFit = some o) : 64 ∣ o ∧ Set.Ico o (o + bytes) ⊆ gaps.free := by
  obtain ⟨g, hg, hplace, _⟩ := FreeSpans.firstFit_eq_some h
  obtain ⟨hdvd, hlow, hhigh⟩ := alignedFit_sound (by decide) hplace
  refine ⟨hdvd, fun x hx => gaps.Ico_subset_free hg ⟨hlow.trans hx.1, ?_⟩⟩
  exact lt_of_lt_of_le hx.2 hhigh

theorem firstFit_none_aligned (hcap : capacity ≤ u64Max) (hpos : 0 < bytes)
    (hin : gaps.free ⊆ Set.Iio capacity) (h : gaps.firstFit = none) (hdvd : 64 ∣ o) :
    ¬ Set.Ico o (o + bytes) ⊆ gaps.free := by
  intro hsub
  obtain ⟨g, hg, hlow, hhigh⟩ := gaps.exists_span (by omega) hsub
  have hlast : o + bytes - 1 < capacity := hin (hsub ⟨by omega, by omega⟩)
  have hsome := alignedFit_isSome (by decide)
    (aligned_room hcap hpos hdvd (by omega)) hdvd hlow hhigh
  rw [FreeSpans.firstFit_eq_none h g hg] at hsome
  cases hsome

/-- A plan: an aligned run of addresses that are usable once the victims, a
prefix of the candidates, are evicted. -/
structure ArenaView.Sound (v : ArenaView) (bytes : Nat) (r : Nat × List EntryId) : Prop where
  aligned : 64 ∣ r.1
  usable : ∃ taken, taken <+: v.candidates ∧ r.2 = taken.map Prod.fst ∧
    Set.Ico r.1 (r.1 + bytes) ⊆ v.openCells taken

theorem ArenaView.WF.evictUntilFit_spec {v : ArenaView} (hv : v.WF) {bytes : Nat}
    (hpos : 0 < bytes) :
    ∀ (rest taken : List (EntryId × Region)) (gaps : FreeSpans (alignedFit 64 bytes)),
      taken ++ rest = v.candidates → gaps.free = v.openCells taken → gaps.firstFit = none →
      match evictUntilFit v.blocked rest (taken.map Prod.fst) gaps with
      | some r => v.Sound bytes r
      | none => ∀ o, 64 ∣ o → ¬ Set.Ico o (o + bytes) ⊆ v.openCells v.candidates
  | [], taken, gaps, hsplit, hgaps, hnone => by
    intro o hdvd
    rw [append_nil] at hsplit
    rw [← hsplit, ← hgaps]
    exact firstFit_none_aligned hv.capacity_le hpos
      (hgaps ▸ v.openCells_subset taken) hnone hdvd
  | c :: rest, taken, gaps, hsplit, hgaps, _ => by
    have hsplit' : (taken ++ [c]) ++ rest = v.candidates := by simpa using hsplit
    have hc : c ∈ v.candidates := by rw [← hsplit]; simp
    have hopen := hv.carve_openCells hc hgaps
    have hmap : taken.map Prod.fst ++ [c.1] = (taken ++ [c]).map Prod.fst := by simp
    unfold evictUntilFit
    dsimp only
    rw [hmap]
    cases hfit : (carve c.2.stop c.2.off v.blocked gaps).firstFit with
    | some o =>
      obtain ⟨hdvd, hsub⟩ := firstFit_aligned hfit
      exact ⟨hdvd, taken ++ [c], ⟨rest, hsplit'⟩, rfl, hopen ▸ hsub⟩
    | none => exact ArenaView.WF.evictUntilFit_spec hv hpos rest (taken ++ [c]) _ hsplit' hopen hfit

theorem ArenaView.WF.resident_le_tail (hv : v.WF) {tail} (h : v.residentTail = some tail) :
    ∀ r ∈ v.resident, r.stop ≤ tail := by
  intro r hr
  have horder := hv.resident_order
  unfold ArenaView.residentTail at h
  revert hr h horder
  cases v.resident using reverseRecOn with
  | nil => intro _ hr; cases hr
  | append_singleton front last =>
    intro h hr horder
    rw [getLast?_concat] at h
    obtain rfl : tail = last.stop := add_of_addChecked h
    rcases mem_append.mp hr with hr | hr
    · have := (pairwise_append.mp horder).2.2 r hr last (by simp)
      exact this.trans (Nat.le_add_right _ _)
    · rw [mem_singleton.mp hr]

theorem ArenaView.sound_of_clear (hdvd : 64 ∣ o) (hin : o + bytes ≤ v.capacity)
    (hresident : ∀ r ∈ v.resident, r.stop ≤ o ∨ o + bytes ≤ r.off)
    (hreserved : ∀ r ∈ v.reservations, r.stop ≤ o ∨ o + bytes ≤ r.off) :
    v.Sound bytes (o, []) := by
  refine ⟨hdvd, [], nil_prefix, rfl, fun x hx => ?_⟩
  obtain ⟨hox, hxo⟩ := Set.mem_Ico.mp hx
  have hout : ∀ r : Region, (r.stop ≤ o ∨ o + bytes ≤ r.off) → ¬ r.Contains x := by
    intro r hr ⟨hlow, hhigh⟩
    rcases hr with hr | hr <;> omega
  exact ⟨by omega, fun r hr => hout r (hreserved r hr),
    fun r hr hx => absurd hx (hout r (hresident r hr))⟩

theorem ArenaView.WF.denseFit_sound (hv : v.WF)
    (h : v.denseFit bytes = some o) : v.Sound bytes (o, []) := by
  unfold ArenaView.denseFit at h
  split at h
  · cases h
  next tail htail =>
  split at h
  · split at h
    · cases h
    next t hdense =>
    obtain ⟨hdvd, hlow, hhigh⟩ := alignedFit_sound (by decide) h
    obtain ⟨hgrow, hends⟩ := denseTail_le _ _ _ hdense
    refine ArenaView.sound_of_clear hdvd hhigh (fun r hr => .inl ?_) (fun r hr => .inl ?_)
    · exact (hv.resident_le_tail htail r hr).trans (hgrow.trans hlow)
    · exact (hends (interval r) (by simpa using mem_map_of_mem hr)).trans hlow
  · cases h

theorem ArenaView.scan_sound
    (h : scanFit 64 bytes v.capacity 0 v.occupied = .ok (some o)) : v.Sound bytes (o, []) := by
  obtain ⟨hdvd, _, hin, hclear⟩ := scanFit_sound (by decide) _ _ (sorted_sortIntervals _) h
  refine ArenaView.sound_of_clear hdvd hin (fun r hr => ?_) (fun r hr => ?_)
  all_goals
    refine hclear (interval r) (mem_sortIntervals.mpr (mem_append.mpr ?_))
  · exact .inl (mem_map_of_mem hr)
  · exact .inr (mem_map_of_mem hr)

/-- **The planner never fails, its plans are sound, and it finds one whenever
evicting every candidate would leave aligned room.** -/
theorem ArenaView.WF.plan_spec (hv : v.WF) (hpos : 0 < bytes) :
    (∃ r, v.plan bytes = .ok (some r) ∧ v.Sound bytes r) ∨
      (v.plan bytes = .ok none ∧
        ∀ o, 64 ∣ o → ¬ Set.Ico o (o + bytes) ⊆ v.openCells v.candidates) := by
  unfold ArenaView.plan
  cases hdense : v.denseFit bytes with
  | some o => exact .inl ⟨_, rfl, hv.denseFit_sound hdense⟩
  | none =>
    obtain ⟨r, hscan⟩ := @scanFit_ok 64 bytes _ _ 0 hv.placed_occupied
    rw [hscan]
    cases r with
    | some o => exact .inl ⟨_, rfl, ArenaView.scan_sound hscan⟩
    | none =>
      obtain ⟨gaps, hgaps⟩ := freeGaps_ok v.occupied 0 (.empty (alignedFit 64 bytes))
        hv.placed_occupied
      have hopen := ArenaView.freeGaps_openCells hgaps
      rw [hgaps]
      dsimp only
      cases hfit : gaps.firstFit with
      | some o =>
        obtain ⟨hdvd, hsub⟩ := firstFit_aligned hfit
        exact .inl ⟨_, rfl, hdvd, [], nil_prefix, rfl, hopen ▸ hsub⟩
      | none =>
        have hevict := hv.evictUntilFit_spec hpos v.candidates [] gaps rfl hopen hfit
        rw [map_nil] at hevict
        cases hres : evictUntilFit v.blocked v.candidates [] gaps with
        | some r => rw [hres] at hevict; exact .inl ⟨r, rfl, hevict⟩
        | none => rw [hres] at hevict; exact .inr ⟨rfl, hevict⟩

namespace ArenaView.Sound
variable {v : ArenaView} {bytes : Nat} {r : Nat × List EntryId}

theorem in_arena (h : v.Sound bytes r) (hpos : 0 < bytes) : r.1 + bytes ≤ v.capacity := by
  obtain ⟨_, taken, _, _, hsub⟩ := h
  have hlast : r.1 + bytes - 1 < v.capacity := (hsub ⟨by omega, by omega⟩).1
  omega

theorem apart_reservation (h : v.Sound bytes r) (hpos : 0 < bytes) {q} (hqpos : 0 < q.len)
    (hq : q ∈ v.reservations) : Region.Apart ⟨r.1, bytes⟩ q := by
  obtain ⟨_, taken, _, _, hsub⟩ := h
  refine Region.apart_of_no_common hpos hqpos fun x hx hqx => ?_
  exact (hsub hx).2.1 q hq hqx

theorem apart_resident (h : v.Sound bytes r) (hpos : 0 < bytes) {q} (hqpos : 0 < q.len)
    (hq : q ∈ v.resident) (hvictims : ∀ c ∈ v.candidates, c.1 ∈ r.2 → q.Apart c.2) :
    Region.Apart ⟨r.1, bytes⟩ q := by
  obtain ⟨_, taken, hpre, hids, hsub⟩ := h
  refine Region.apart_of_no_common hpos hqpos fun x hx hqx => ?_
  obtain ⟨c, hc, hcx⟩ := (hsub hx).2.2 q hq hqx
  have hap := hvictims c (hpre.subset hc) (hids ▸ mem_map_of_mem hc)
  exact hap.not_contains hqx hcx

theorem victims_sublist (h : v.Sound bytes r) : r.2 <+: v.candidates.map Prod.fst := by
  obtain ⟨_, taken, ⟨rest, hpre⟩, hids, _⟩ := h
  exact ⟨rest.map Prod.fst, by rw [hids, ← hpre, map_append]⟩

end ArenaView.Sound

end ExpertStreaming.RamCache
