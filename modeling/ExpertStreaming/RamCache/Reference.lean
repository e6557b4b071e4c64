import ExpertStreaming.RamCache.Accounting
import Mathlib.Order.Bounds.Basic

/-! # The RAM expert cache: the plain planner

What `allocation_plan` is to answer, without its fast path and its gap tree: for a growing prefix
of the evictable entries in retention order, first fit over the entries that stay and the
reservations of the other loads. Both planners look for the lowest aligned run in the same set of
addresses, and such a run is unique.
-/
namespace ExpertStreaming.RamCache
open Lib List

/-! ## The reference -/

/-- First fit over the entries outside `victims` and the reservations of the other loads. -/
def State.firstFitWithout (p : Params) (s : State) (bytes : Nat) (own : Option LoadId)
    (victims : List EntryId) : Except CacheError (Option Nat) :=
  arenaFirstFit
    (((s.byOffset.toList.filter fun i => i.2 ∉ victims).map fun i =>
        interval ⟨i.1, s.bytesOf p i.2⟩) ++
      (s.pending.values.filter fun l => some l ≠ own).map fun l => interval (s.claim p l))
    p.config.capacityBytes bytes 64

/-- The shortest of the prefixes `victims`, `victims ++ [c]`, … for which `fit` finds room. -/
def leastPrefix (fit : List EntryId → Except CacheError (Option Nat)) :
    List EntryId → List EntryId → Except CacheError (Option (Nat × List EntryId))
  | victims, [] => (fit victims).map fun found => found.map fun offset => (offset, victims)
  | victims, c :: rest =>
    match fit victims with
    | .error e => .error e
    | .ok (some offset) => .ok (some (offset, victims))
    | .ok none => leastPrefix fit (victims ++ [c]) rest

def State.referencePlan (p : Params) (s : State) (bytes : Nat) (own : Option LoadId) :
    Except CacheError (Option (Nat × List EntryId)) :=
  leastPrefix (s.firstFitWithout p bytes own) [] (s.byRecency.filter (s.evictable own))

/-! ## The lowest aligned run -/

def Fits (bytes : Nat) (usable : Set Nat) (o : Nat) : Prop :=
  64 ∣ o ∧ Set.Ico o (o + bytes) ⊆ usable

def Answers (bytes : Nat) (usable : Set Nat) : Option Nat → Prop
  | some o => IsLeast {o | Fits bytes usable o} o
  | none => ∀ o, ¬ Fits bytes usable o

variable {bytes : Nat} {v : ArenaView} {fit : List EntryId → Except CacheError (Option Nat)}

theorem Answers.unique {usable r r'} (h : Answers bytes usable r) (h' : Answers bytes usable r') :
    r = r' := by
  cases r with
  | none =>
    cases r' with
    | none => rfl
    | some o' => exact absurd h'.1 (h o')
  | some o =>
    cases r' with
    | none => exact absurd h.1 (h' o)
    | some o' => rw [IsLeast.unique h h']

theorem alignedFit_le {alignment start stop o o'} (hpos : 0 < alignment)
    (h : alignedFit alignment bytes start stop = some o) (hdvd : alignment ∣ o')
    (hstart : start ≤ o') : o ≤ o' := by
  unfold alignedFit at h
  split at h
  · cases h
  next sum hsum =>
  obtain rfl := add_of_addChecked hsum
  dsimp only at h
  split at h
  · cases h
  obtain rfl := Option.some.inj h
  obtain ⟨k, rfl⟩ := hdvd
  rw [Nat.mul_comm alignment k]
  refine Nat.mul_le_mul_right _ (Nat.lt_succ_iff.mp ((Nat.div_lt_iff_lt_mul hpos).mpr ?_))
  rw [Nat.succ_mul, Nat.mul_comm k alignment]
  omega

theorem Fits.bounds {lower upper o usable} (hpos : 0 < bytes) (hsub : usable ⊆ Set.Ico lower upper)
    (h : Fits bytes usable o) :
    lower ≤ o ∧ o + bytes ≤ upper := by
  have hfirst := hsub (h.2 ⟨le_refl o, by omega⟩)
  have hlast := hsub (h.2 (show o + bytes - 1 ∈ Set.Ico o (o + bytes) from ⟨by omega, by omega⟩))
  rw [Set.mem_Ico] at hfirst hlast
  omega

theorem scanFit_answers {bytes capacity} (hcap : capacity ≤ u64Max) (hpos : 0 < bytes) :
    ∀ (l : List Span) (cursor : Nat) (r : Option Nat), (l.Pairwise fun a b => a.1 ≤ b.1) →
      (∀ i ∈ l, i.1 < i.2) → scanFit 64 bytes capacity cursor l = .ok r →
      Answers bytes {x | cursor ≤ x ∧ x < capacity ∧ x ∉ cells l} r
  | [], cursor, r, _, _, h => by
    have husable : {x | cursor ≤ x ∧ x < capacity ∧ x ∉ cells []} ⊆ Set.Ico cursor capacity :=
      fun x hx => ⟨hx.1, hx.2.1⟩
    obtain rfl := Except.ok.inj h
    cases hfit : alignedFit 64 bytes cursor capacity with
    | none =>
      intro o ho
      obtain ⟨hlow, hhigh⟩ := ho.bounds hpos husable
      have := alignedFit_isSome (by decide) (aligned_room hcap hpos ho.1 hhigh) ho.1 hlow hhigh
      rw [hfit] at this
      cases this
    | some o =>
      obtain ⟨hdvd, hlow, hhigh⟩ := alignedFit_sound (by decide) hfit
      refine ⟨⟨hdvd, fun x hx => ?_⟩, fun o' ho' => ?_⟩
      · rw [Set.mem_Ico] at hx
        exact ⟨by omega, by omega, by simp⟩
      · exact alignedFit_le (by decide) hfit ho'.1 (ho'.bounds hpos husable).1
  | i :: rest, cursor, r, hsorted, hne, h => by
    obtain ⟨hfirst, hsorted⟩ := pairwise_cons.mp hsorted
    have hi := hne i mem_cons_self
    have husable : {x | cursor ≤ x ∧ x < capacity ∧ x ∉ cells (i :: rest)} ⊆
        Set.Ico cursor capacity := fun x hx => ⟨hx.1, hx.2.1⟩
    unfold scanFit at h
    split at h
    · cases h
    next hplaced =>
    cases hfit : alignedFit 64 bytes cursor i.1 with
    | some o =>
      rw [hfit] at h
      obtain rfl := Except.ok.inj h
      obtain ⟨hdvd, hlow, hhigh⟩ := alignedFit_sound (by decide) hfit
      refine ⟨⟨hdvd, fun x hx => ?_⟩, fun o' ho' => ?_⟩
      · rw [Set.mem_Ico] at hx
        refine ⟨by omega, by omega, not_mem_cells_of_lt (fun j hj => ?_) (show x < i.1 by omega)⟩
        rcases mem_cons.mp hj with rfl | hj
        · exact le_rfl
        · exact hfirst j hj
      · exact alignedFit_le (by decide) hfit ho'.1 (ho'.bounds hpos husable).1
    | none =>
      rw [hfit] at h
      have ih := scanFit_answers hcap hpos rest _ r hsorted
        (fun j hj => hne j (mem_cons_of_mem _ hj)) h
      -- a run that does not fit before the interval lies behind it
      have hsame : ∀ o, Fits bytes {x | cursor ≤ x ∧ x < capacity ∧ x ∉ cells (i :: rest)} o ↔
          Fits bytes {x | max cursor i.2 ≤ x ∧ x < capacity ∧ x ∉ cells rest} o := by
        intro o
        refine and_congr_right fun hdvd => ⟨fun hsub x hx => ?_, fun hsub x hx => ?_⟩
        · obtain ⟨hlow, hhigh⟩ := Fits.bounds hpos husable ⟨hdvd, hsub⟩
          have hbehind : i.2 ≤ o := by
            by_contra hbefore
            rcases Nat.lt_or_ge i.1 (o + bytes) with hmeets | hclear
            · have hx' : max o i.1 ∈ Set.Ico o (o + bytes) := ⟨by omega, by omega⟩
              refine (hsub hx').2.2 ?_
              rw [cells_cons]
              exact .inl ⟨by omega, by omega⟩
            · have := alignedFit_isSome (by decide) (aligned_room hcap hpos hdvd hhigh) hdvd hlow
                hclear
              rw [hfit] at this
              cases this
          have hx' := hsub hx
          rw [Set.mem_Ico] at hx
          refine ⟨by omega, hx'.2.1, fun hmem => hx'.2.2 ?_⟩
          rw [cells_cons]
          exact .inr hmem
        · obtain ⟨hlow, hlt, hout⟩ := hsub hx
          refine ⟨by omega, hlt, ?_⟩
          rw [cells_cons]
          rintro (hin | hin)
          · rw [Set.mem_Ico] at hin
            omega
          · exact hout hin
      cases r with
      | none => exact fun o ho => ih o ((hsame o).mp ho)
      | some o => exact ⟨(hsame o).mpr ih.1, fun o' ho' => ih.2 ((hsame o').mp ho')⟩

theorem arenaFirstFit_answers {occupied capacity} (hcap : capacity ≤ u64Max) (hpos : 0 < bytes)
    (hplaced : Placed capacity occupied) (hne : ∀ i ∈ occupied, i.1 < i.2) :
    ∃ r, arenaFirstFit occupied capacity bytes 64 = .ok r ∧
      Answers bytes {x | x < capacity ∧ x ∉ cells occupied} r := by
  obtain ⟨r, hr⟩ := @scanFit_ok 64 bytes _ _ 0 hplaced.sort
  have hanswers := scanFit_answers hcap hpos _ 0 r (sorted_sortIntervals _)
    (fun i hi => hne i (mem_sortIntervals.mp hi)) hr
  simp only [Nat.zero_le, true_and, cells_sortIntervals] at hanswers
  exact ⟨r, hr, hanswers⟩

theorem firstFit_answers {capacity : Nat} {gaps : FreeSpans (alignedFit 64 bytes)}
    (hcap : capacity ≤ u64Max) (hpos : 0 < bytes) (hin : gaps.free ⊆ Set.Iio capacity) :
    Answers bytes gaps.free gaps.firstFit := by
  cases hfit : gaps.firstFit with
  | none => exact fun o ho => firstFit_none_aligned hcap hpos hin hfit ho.1 ho.2
  | some o =>
    refine ⟨firstFit_aligned hfit, fun o' ho' => ?_⟩
    obtain ⟨g, hg, hplace, hlowest⟩ := FreeSpans.firstFit_eq_some hfit
    obtain ⟨hdvd, hlow, hhigh⟩ := alignedFit_sound (by decide) hplace
    obtain ⟨k, hk, hklow, hkhigh⟩ := gaps.exists_span (by omega) ho'.2
    have hlast : o' + bytes - 1 < capacity := hin (ho'.2 ⟨by omega, by omega⟩)
    have hsome := alignedFit_isSome (by decide)
      (aligned_room hcap hpos ho'.1 (by omega)) ho'.1 hklow hkhigh
    have hfirst := hlowest k hk hsome
    by_cases heq : g = k
    · subst heq
      exact alignedFit_le (by decide) hplace ho'.1 hklow
    · have hknonempty := gaps.nonempty k hk
      rcases gaps.apart_of_ne hg hk heq with hbefore | hbehind
      · omega
      · have := gaps.nonempty k hk
        omega

/-! ## The dense prefix -/

theorem full_prefix {tail : Nat} {regions : List Region} (happart : regions.Pairwise Region.Apart)
    (hin : ∀ r ∈ regions, r.stop ≤ tail) (hsum : (regions.map Region.len).sum = tail) {x : Nat}
    (hx : x < tail) : ∃ r ∈ regions, r.Contains x := by
  have hsubset : Region.cells regions ⊆ Finset.range tail := by
    intro y hy
    obtain ⟨r, hr, hc⟩ := Region.mem_cells.mp hy
    exact Finset.mem_range.mpr (lt_of_lt_of_le hc.2 (hin r hr))
  have hall : Region.cells regions = Finset.range tail := by
    refine Finset.eq_of_subset_of_card_le hsubset ?_
    rw [Region.card_cells happart, hsum, Finset.card_range]
  exact Region.mem_cells.mp (hall ▸ Finset.mem_range.mpr hx)

theorem denseTail_covers {capacity} :
    ∀ (l : List Span) (tail t : Nat), (∀ i ∈ l, i.1 < i.2) →
      denseTail capacity tail l = some t →
      ∀ o, 64 ∣ o → tail ≤ o → o < t → o ∈ cells l
  | [], tail, t, _, h, o, _, hlow, hhigh => by
    obtain rfl := Option.some.inj h
    omega
  | i :: rest, tail, t, hne, h, o, hdvd, hlow, hhigh => by
    unfold denseTail at h
    split at h
    · cases h
    split at h
    · cases h
    next sum hsum =>
    split at h
    · cases h
    next htouch =>
    obtain rfl := add_of_addChecked hsum
    rw [cells_cons]
    rcases Nat.lt_or_ge o (max tail i.2) with hinside | hbehind
    · -- an aligned address from the tail on is not below the tail rounded up
      left
      have hround : (tail + 63) / 64 * 64 ≤ o := by
        obtain ⟨k, rfl⟩ := hdvd
        omega
      exact ⟨by omega, by omega⟩
    · right
      exact denseTail_covers rest _ t (fun j hj => hne j (mem_cons_of_mem _ hj)) h o hdvd
        hbehind hhigh

/-- What the planner's answer relies on beyond its safety. -/
structure ArenaView.Counted (v : ArenaView) : Prop where
  resident_pos : ∀ r ∈ v.resident, 0 < r.len
  reservations_pos : ∀ r ∈ v.reservations, 0 < r.len
  counted : ∃ ready : List Region, ready.Sublist v.resident ∧
    (ready.map Region.len).sum = v.residentBytes

theorem ArenaView.WF.denseFit_answers (hv : v.WF) (hc : v.Counted) {o : Nat}
    (hpos : 0 < bytes) (h : v.denseFit bytes = some o) :
    Answers bytes (v.openCells []) (some o) := by
  have hsound := hv.denseFit_sound h
  obtain ⟨hdvd, taken, -, hids, hsub⟩ := hsound
  have htaken : taken = [] := map_eq_nil_iff.mp hids.symm
  subst htaken
  refine ⟨⟨hdvd, hsub⟩, fun o' ho' => ?_⟩
  unfold ArenaView.denseFit at h
  split at h
  · cases h
  next tail htail =>
  split at h
  next hdense =>
    split at h
    · cases h
    next t hwalk =>
    refine alignedFit_le (by decide) h ho'.1 ?_
    -- below the tail every aligned address is occupied
    by_contra hbelow
    have hopen : o' ∈ v.openCells [] := ho'.2 ⟨le_refl o', by omega⟩
    rcases Nat.lt_or_ge o' tail with hresident | hreserved
    · obtain ⟨ready, hready, hsum⟩ := hc.counted
      have happart : ready.Pairwise Region.Apart := (hv.resident_order.imp Or.inl).sublist hready
      have hin := hv.resident_le_tail htail
      obtain ⟨r, hr, hx⟩ := full_prefix happart (fun r hr => hin r (hready.subset hr))
        (hsum.trans hdense.1) hresident
      obtain ⟨c, hmem, -⟩ := hopen.2.2 r (hready.subset hr) hx
      cases hmem
    · have hcovered := denseTail_covers _ _ _ (fun i hi => ?_) hwalk o' ho'.1 hreserved (by omega)
      · rw [cells_sortIntervals, mem_cells_interval] at hcovered
        obtain ⟨r, hr, hx⟩ := hcovered
        exact hopen.2.1 r hr hx
      · obtain ⟨r, hr, rfl⟩ := mem_map.mp (mem_sortIntervals.mp hi)
        have := hc.reservations_pos r hr
        show r.off < r.off + r.len
        omega
  · cases h

/-! ## The two planners -/

theorem ArenaView.WF.scan_answers (hv : v.WF) (hc : v.Counted) {r} (hpos : 0 < bytes)
    (h : scanFit 64 bytes v.capacity 0 v.occupied = .ok r) : Answers bytes (v.openCells []) r := by
  have hne : ∀ i ∈ v.occupied, i.1 < i.2 := by
    intro i hi
    rw [ArenaView.occupied, mem_sortIntervals, ← map_append] at hi
    obtain ⟨r, hr, rfl⟩ := mem_map.mp hi
    have hlen : 0 < r.len := (mem_append.mp hr).elim (hc.resident_pos r) (hc.reservations_pos r)
    show r.off < r.off + r.len
    omega
  have hopen : {x | 0 ≤ x ∧ x < v.capacity ∧ x ∉ cells v.occupied} = v.openCells [] := by
    ext x
    simp only [ArenaView.occupied, cells_sortIntervals, cells_append, Set.mem_ofPred_eq,
      Set.mem_union, mem_cells_interval, ArenaView.openCells]
    grind
  rw [← hopen]
  exact scanFit_answers hv.capacity_le hpos _ 0 r (sorted_sortIntervals _) hne h

theorem ArenaView.WF.evictUntilFit_eq (hv : v.WF) (hpos : 0 < bytes)
    (hfit : ∀ taken, taken <+: v.candidates → ∃ r, fit (taken.map Prod.fst) = .ok r ∧
      Answers bytes (v.openCells taken) r) :
    ∀ (rest taken : List (EntryId × Region)) (gaps : FreeSpans (alignedFit 64 bytes)),
      taken ++ rest = v.candidates → gaps.free = v.openCells taken → gaps.firstFit = none →
      leastPrefix fit (taken.map Prod.fst) (rest.map Prod.fst) =
        .ok (evictUntilFit v.blocked rest (taken.map Prod.fst) gaps) := by
  -- where the gap tree finds nothing, first fit finds nothing
  have hnone : ∀ taken, taken <+: v.candidates → ∀ gaps : FreeSpans (alignedFit 64 bytes),
      gaps.free = v.openCells taken → fit (taken.map Prod.fst) = .ok gaps.firstFit := by
    intro taken htaken gaps hgaps
    obtain ⟨r, hr, hanswers⟩ := hfit taken htaken
    have htree : Answers bytes gaps.free gaps.firstFit :=
      firstFit_answers hv.capacity_le hpos (hgaps ▸ v.openCells_subset taken)
    rw [hr, hanswers.unique (hgaps ▸ htree)]
  intro rest
  induction rest with
  | nil =>
    intro taken gaps hsplit hgaps hempty
    rw [map_nil, leastPrefix, hnone taken ⟨[], hsplit⟩ gaps hgaps, hempty]
    rfl
  | cons c rest ih =>
    intro taken gaps hsplit hgaps hempty
    have hsplit' : (taken ++ [c]) ++ rest = v.candidates := by simpa using hsplit
    have hopen := hv.carve_openCells (show c ∈ v.candidates by rw [← hsplit]; simp) hgaps
    have hmap : taken.map Prod.fst ++ [c.1] = (taken ++ [c]).map Prod.fst := by simp
    rw [map_cons, leastPrefix, hnone taken ⟨_, hsplit⟩ gaps hgaps, hempty]
    dsimp only
    unfold evictUntilFit
    dsimp only
    rw [hmap]
    cases htree : (carve c.2.stop c.2.off v.blocked gaps).firstFit with
    | none => exact ih (taken ++ [c]) _ hsplit' hopen htree
    | some o =>
      have hfound := hnone (taken ++ [c]) ⟨rest, hsplit'⟩ _ hopen
      rw [htree] at hfound
      cases rest with
      | nil =>
        rw [map_nil, leastPrefix, hfound]
        rfl
      | cons next rest => rw [map_cons, leastPrefix, hfound]

/-- **The planner answers as the plain one does**, whatever first fit it is compared with. -/
theorem ArenaView.WF.plan_eq (hv : v.WF) (hc : v.Counted)
    (hpos : 0 < bytes)
    (hfit : ∀ taken, taken <+: v.candidates → ∃ r, fit (taken.map Prod.fst) = .ok r ∧
      Answers bytes (v.openCells taken) r) :
    v.plan bytes = leastPrefix fit [] (v.candidates.map Prod.fst) := by
  obtain ⟨first, hfirst, hanswers⟩ := hfit [] nil_prefix
  have hfound : ∀ o, first = some o →
      leastPrefix fit [] (v.candidates.map Prod.fst) = .ok (some (o, [])) := by
    rintro o rfl
    cases hcandidates : v.candidates.map Prod.fst with
    | nil =>
      rw [leastPrefix, show fit [] = .ok (some o) from hfirst]
      rfl
    | cons c rest => rw [leastPrefix, show fit [] = .ok (some o) from hfirst]
  unfold ArenaView.plan
  cases hdense : v.denseFit bytes with
  | some o =>
    exact (hfound o (hanswers.unique (hv.denseFit_answers hc hpos hdense))).symm
  | none =>
    obtain ⟨scanned, hscan⟩ := @scanFit_ok 64 bytes _ _ 0 hv.placed_occupied
    have hsame : first = scanned := hanswers.unique (hv.scan_answers hc hpos hscan)
    rw [hscan]
    cases scanned with
    | some o => exact (hfound o hsame).symm
    | none =>
      obtain ⟨gaps, hgaps⟩ := freeGaps_ok v.occupied 0 (.empty (alignedFit 64 bytes))
        hv.placed_occupied
      have hopen := ArenaView.freeGaps_openCells hgaps
      have htree : Answers bytes gaps.free gaps.firstFit :=
        firstFit_answers hv.capacity_le hpos (hopen ▸ v.openCells_subset [])
      have hempty : gaps.firstFit = none := by
        rw [hopen] at htree
        exact htree.unique (hsame ▸ hanswers)
      rw [hgaps]
      dsimp only
      rw [hempty]
      exact (hv.evictUntilFit_eq hpos hfit v.candidates [] gaps rfl hopen hempty).symm

/-! ## The planner of a cache -/

section Cache

variable {p : Params} {s : State}

theorem Layout.values_perm (hl : Layout p s) :
    (s.byOffset.toList.map Prod.snd).Perm s.entries.values := by
  refine (perm_ext_iff_of_nodup ?_ ?_).mpr fun e => ?_
  · rw [List.Nodup, pairwise_map]
    refine (List.Pairwise.and_mem.mp s.byOffset.sorted).imp fun {a b} h heq => ?_
    obtain ⟨ha, hb, hlt⟩ := h
    have ha' := (hl.mem_byOffset.mp ha).2
    rw [heq, (hl.mem_byOffset.mp hb).2] at ha'
    exact hlt.ne ha'.symm
  · rw [OrdMap.values, List.Nodup, pairwise_map]
    refine (List.Pairwise.and_mem.mp s.entries.sorted).imp fun {a b} h => ?_
    obtain ⟨ha, hb, hlt⟩ := h
    exact hl.entry_ne (OrdMap.find?_eq_some.mpr ha) (OrdMap.find?_eq_some.mpr hb) hlt.ne
  · rw [OrdMap.mem_values, mem_map]
    constructor
    · rintro ⟨b, hb, rfl⟩
      exact ⟨_, (hl.mem_byOffset.mp hb).1⟩
    · rintro ⟨k, hk⟩
      exact ⟨((s.heap e).arenaOffset, e), hl.mem_byOffset.mpr ⟨hl.resident_of_find hk, rfl⟩, rfl⟩

theorem Layout.arenaView_counted (hl : Layout p s) (hc : Counters p s) (own : Option LoadId) :
    (s.arenaView p own).Counted where
  resident_pos r hr := by
    obtain ⟨e, -, rfl⟩ := hl.mem_resident.mp hr
    exact s.bytesOf_pos p e
  reservations_pos r hr := by
    obtain ⟨l, -, -, rfl⟩ := hl.mem_reservations.mp hr
    exact s.bytesOf_pos p _
  counted := by
    refine ⟨(s.byOffset.toList.filter fun i => (s.heap i.2).ready).map fun i =>
      ⟨i.1, s.bytesOf p i.2⟩, filter_sublist.map _, ?_⟩
    show _ = s.stats.residentBytes
    rw [hc.resident, map_map]
    have hsum : ∀ l : List (Nat × EntryId),
        ((l.filter fun i => (s.heap i.2).ready).map fun i => s.bytesOf p i.2).sum =
          ((l.map Prod.snd).map fun e => if (s.heap e).ready then s.bytesOf p e else 0).sum := by
      intro l
      induction l with
      | nil => rfl
      | cons i rest ih =>
        by_cases hready : (s.heap i.2).ready = true
        · simp [hready, ih]
        · simp [hready, ih]
    refine (hsum _).trans (((hl.values_perm).map _).sum_eq.trans ?_)
    rw [OrdMap.sumBy, OrdMap.values, map_map]
    rfl

theorem Layout.openCells_eq (hl : Layout p s) (hr : Retention p s) {own taken}
    (htaken : taken <+: (s.arenaView p own).candidates) :
    {x | x < p.config.capacityBytes ∧ x ∉ cells
      (((s.byOffset.toList.filter fun i => i.2 ∉ taken.map Prod.fst).map fun i =>
          interval ⟨i.1, s.bytesOf p i.2⟩) ++
        (s.pending.values.filter fun l => some l ≠ own).map fun l => interval (s.claim p l))} =
      (s.arenaView p own).openCells taken := by
  have hcandidate : ∀ c ∈ taken, s.Resident p c.1 ∧ c.2 = s.region p c.1 := by
    intro c hc
    obtain ⟨hlisted, -, hregion⟩ := mem_candidates.mp (htaken.subset hc)
    exact ⟨hr.resident _ hlisted, hregion⟩
  have hstays : ∀ x, x ∈ cells ((s.byOffset.toList.filter fun i => i.2 ∉ taken.map Prod.fst).map
      fun i => interval ⟨i.1, s.bytesOf p i.2⟩) ↔
        ∃ e, s.Resident p e ∧ e ∉ taken.map Prod.fst ∧ (s.region p e).Contains x := by
    intro x
    constructor
    · rintro ⟨g, hg, hx⟩
      obtain ⟨i, hmem, rfl⟩ := mem_map.mp hg
      obtain ⟨hi', hout⟩ := mem_filter.mp hmem
      obtain ⟨hres, hoff⟩ := hl.mem_byOffset.mp hi'
      refine ⟨i.2, hres, of_decide_eq_true hout, ?_⟩
      rw [State.region, hoff]
      exact hx
    · rintro ⟨e, hres, hout, hx⟩
      refine ⟨interval (s.region p e), mem_map.mpr ⟨((s.heap e).arenaOffset, e),
        mem_filter.mpr ⟨hl.mem_byOffset.mpr ⟨hres, rfl⟩, decide_eq_true hout⟩, rfl⟩, hx⟩
  have hreserved : ∀ x, x ∈ cells ((s.pending.values.filter fun l => some l ≠ own).map
      fun l => interval (s.claim p l)) ↔
        ∃ r ∈ (s.arenaView p own).reservations, r.Contains x := by
    intro x
    rw [← mem_cells_interval, State.arenaView, map_map]
    rfl
  ext x
  simp only [Set.mem_ofPred_eq, cells_append, Set.mem_union, hstays, hreserved, not_or, not_exists,
    not_and, ArenaView.openCells]
  refine and_congr_right fun _ => ⟨?_, ?_⟩
  · rintro ⟨hout, hclear⟩
    refine ⟨hclear, fun r hmem hx => ?_⟩
    obtain ⟨e, hres, rfl⟩ := hl.mem_resident.mp hmem
    have hmem : e ∈ taken.map Prod.fst := by
      by_contra hnot
      exact hout e hres hnot hx
    obtain ⟨c, hc, rfl⟩ := mem_map.mp hmem
    exact ⟨c, hc, (hcandidate c hc).2 ▸ hx⟩
  · rintro ⟨hclear, hcovered⟩
    refine ⟨fun e hres hout hx => ?_, hclear⟩
    obtain ⟨c, hc, hcx⟩ := hcovered _ (hl.mem_resident.mpr ⟨e, hres, rfl⟩) hx
    obtain ⟨hcres, hregion⟩ := hcandidate c hc
    have hne : e ≠ c.1 := fun heq => hout (heq ▸ mem_map_of_mem hc)
    rw [hregion] at hcx
    exact (hl.entry_apart e c.1 hres hcres hne).not_contains hx hcx

/-- **`allocation_plan` is the plain planner.** -/
theorem allocationPlan_eq_referencePlan (hl : Layout p s) (hr : Retention p s)
    (hc : Counters p s) {bytes : Nat} (hpos : 0 < bytes) (own : Option LoadId) :
    s.allocationPlan p bytes own = s.referencePlan p bytes own := by
  have hv := hl.arenaView_wf hr own
  have hids : (s.arenaView p own).candidates.map Prod.fst =
      s.byRecency.filter (s.evictable own) := by
    rw [State.arenaView, map_map]
    exact map_id _
  rw [State.allocationPlan, State.referencePlan, ← hids]
  refine hv.plan_eq (hl.arenaView_counted hc own) hpos fun taken htaken => ?_
  rw [← hl.openCells_eq hr htaken]
  refine arenaFirstFit_answers p.config.capacity_le hpos ?_ ?_
  · intro i hmem
    rcases mem_append.mp hmem with hmem | hmem
    · obtain ⟨b, hb, rfl⟩ := mem_map.mp hmem
      obtain ⟨hres, hoff⟩ := hl.mem_byOffset.mp (mem_filter.mp hb).1
      have hin := hl.entry_in b.2 hres
      rw [State.region, hoff] at hin
      exact ⟨Nat.le_add_right _ _, hin⟩
    · obtain ⟨l, hpending, rfl⟩ := mem_map.mp hmem
      refine ⟨Nat.le_add_right _ _, hl.claim_in l ?_⟩
      exact hl.pending_iff.mpr (mem_filter.mp hpending).1
  · intro i hmem
    rcases mem_append.mp hmem with hmem | hmem
    · obtain ⟨b, -, rfl⟩ := mem_map.mp hmem
      exact Nat.lt_add_of_pos_right (s.bytesOf_pos p b.2)
    · obtain ⟨l, -, rfl⟩ := mem_map.mp hmem
      exact Nat.lt_add_of_pos_right (s.bytesOf_pos p _)

/-- Both slots of the tiny cache are taken, and a request for 65 bytes evicts the two entries in
the order of their use. -/
theorem two_entries_are_evicted_in_tinyCache :
    ∃ evs s, exec (tinyCache false) (.initial zeroed zeroed)
        (loadSteps 0 3 ++ [.finishCopy 0, .release 0] ++ loadSteps 0 4 ++
          [.finishCopy 0, .release 1]) = some (evs, s) ∧
      s.allocationPlan (tinyCache false) 65 none = .ok (some (0, [0, 1])) ∧
      s.referencePlan (tinyCache false) 65 none = .ok (some (0, [0, 1])) := by
  have hplanned : ((exec (tinyCache false) (.initial zeroed zeroed)
      (loadSteps 0 3 ++ [.finishCopy 0, .release 0] ++ loadSteps 0 4 ++
        [.finishCopy 0, .release 1])).map fun r =>
          (r.2.allocationPlan (tinyCache false) 65 none).toOption) =
        some (some (some (0, [0, 1]))) := by
    decide +kernel
  obtain ⟨⟨evs, s⟩, hexec, hplan⟩ := Option.map_eq_some_iff.mp hplanned
  have hreached : Reached (tinyCache false) s :=
    ⟨_, evs, ⟨zeroed, zeroed, rfl⟩, exec_trace hexec⟩
  have hi := hreached.inv
  have hok : s.allocationPlan (tinyCache false) 65 none = .ok (some (0, [0, 1])) := by
    cases hresult : s.allocationPlan (tinyCache false) 65 none with
    | error e =>
      rw [hresult] at hplan
      cases hplan
    | ok r =>
      rw [hresult] at hplan
      exact congrArg Except.ok (Option.some.inj hplan)
  refine ⟨evs, s, hexec, hok, ?_⟩
  rw [← allocationPlan_eq_referencePlan hi.layout hi.retention hi.counters (by decide) none]
  exact hok

end Cache

end ExpertStreaming.RamCache
