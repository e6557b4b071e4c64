import ExpertStreaming.RamCache.Reserve

/-! # The RAM expert cache: re-planning, reading and placing

What an owner does with its reservation before publication: fill its staging
region extent by extent, swap the reservation when a victim was leased meanwhile,
and write the placement into the entry that is not yet indexed.
-/
namespace ExpertStreaming.RamCache
open Lib State

variable {p : Params} {s : State} {l : LoadId}

/-! ## Swapping a reservation -/

section Replan
variable {offset : Nat} {victims : List EntryId}

theorem replan_heap (s : State) (l : LoadId) (offset : Nat) (victims : List EntryId)
    (e : EntryId) : (s.replan l offset victims).heap e =
      { s.heap e with
        reservedBy := if e ∈ victims then some l else
          if e ∈ (s.loads l).victims then none else (s.heap e).reservedBy } := by
  simp only [replan]
  split
  · rfl
  · split <;> rfl

theorem replan_load_of_ne {m} (hm : m ≠ l) :
    (s.replan l offset victims).loads m = s.loads m := if_neg hm

theorem replan_load_self (s : State) (l : LoadId) (offset : Nat) (victims : List EntryId) :
    (s.replan l offset victims).loads l =
      { s.loads l with victims := victims, arenaOffset := offset } := if_pos rfl

/-- Everything but the marks and the owner's claim stays. -/
structure Replanned (s t : State) (l : LoadId) (offset : Nat) (victims : List EntryId) : Prop where
  entry : ∀ e, t.heap e = { s.heap e with
    reservedBy := if e ∈ victims then some l else
      if e ∈ (s.loads l).victims then none else (s.heap e).reservedBy }
  load : ∀ m, m ≠ l → t.loads m = s.loads m
  load_self : t.loads l = { s.loads l with victims := victims, arenaOffset := offset }
  rest : t = { s with heap := t.heap, loads := t.loads }

theorem replan_spec (s : State) (l : LoadId) (offset : Nat) (victims : List EntryId) :
    Replanned s (s.replan l offset victims) l offset victims :=
  ⟨replan_heap s l offset victims, fun _ => replan_load_of_ne, replan_load_self s l offset victims,
    rfl⟩

end Replan

namespace Replanned
variable {t : State} {offset : Nat} {victims : List EntryId}
variable (h : Replanned s t l offset victims)
include h

theorem entries : t.entries = s.entries := by rw [h.rest]
theorem byOffset : t.byOffset = s.byOffset := by rw [h.rest]
theorem pendingMap : t.pending = s.pending := by rw [h.rest]

theorem keyOf (e : EntryId) : t.keyOf p e = s.keyOf p e := by rw [State.keyOf, h.entry]; rfl

theorem bytesOf (e : EntryId) : t.bytesOf p e = s.bytesOf p e := by
  rw [State.bytesOf, h.entry]; rfl

variable (m : LoadId)

theorem result : (t.loads m).result = (s.loads m).result := by
  by_cases hm : m = l
  · rw [hm, h.load_self]
  · rw [h.load m hm]

theorem state : (t.loads m).state = (s.loads m).state := by
  by_cases hm : m = l
  · rw [hm, h.load_self]
  · rw [h.load m hm]

theorem error : (t.loads m).error = (s.loads m).error := by
  by_cases hm : m = l
  · rw [hm, h.load_self]
  · rw [h.load m hm]

theorem stagingOffset : (t.loads m).stagingOffset = (s.loads m).stagingOffset := by
  by_cases hm : m = l
  · rw [hm, h.load_self]
  · rw [h.load m hm]

theorem useCount : (t.loads m).useCount = (s.loads m).useCount := by
  by_cases hm : m = l
  · rw [hm, h.load_self]
  · rw [h.load m hm]

theorem resident (e : EntryId) : t.Resident p e ↔ s.Resident p e := by
  simp only [State.Resident, h.keyOf, h.entries]

theorem pending : t.Pending p m ↔ s.Pending p m := by
  simp only [State.Pending, h.result, h.keyOf, h.pendingMap]

theorem stage : t.stage p m = s.stage p m := by
  rw [State.stage, h.stagingOffset, h.result, h.bytesOf]; rfl

theorem reserves (hl : Layout p s) (hr : Retention p s) (hp : s.Pending p l)
    (hs : (s.loads l).state = .loading)
    (hplace : Placement p s (s.bytesOf p l) (some l) offset victims) :
    Reserves p s t l offset victims (s.loads l).victims := by
  obtain ⟨hnot, hnone⟩ := hl.loading hp hs
  have hnext : t.next = s.next := by rw [h.rest]
  refine ⟨h.entries, h.byOffset, hnext.ge, hnext ▸ hl.load_fresh l hp, hnot, fun e _ => h.entry e,
    ?_, ?_, h.load, ?_, ?_, ?_, ?_, ?_, ⟨some l, ?_, h.bytesOf l ▸ hplace⟩⟩
  · rw [h.entry]
    dsimp only
    rw [if_neg fun hv => hnot (hr.resident l (hplace.listed l hv)), hnone, ite_self]
  · exact fun e he => ⟨fun hv => (hl.victim l e hp hs hv).2.2, fun hm => (hl.reserved e l he hm).2.2⟩
  · rw [h.load_self]; exact ⟨hl.result l, hs, hl.load_error l hp, rfl, rfl⟩
  · intro m; rw [h.pending]; exact (or_iff_left_of_imp fun he => he ▸ hp).symm
  · intro k m; rw [h.pendingMap, h.keyOf]; exact hl.load_key k m
  · rw [h.stage]; exact hl.stage_in l hp
  · intro m hne hm; rw [h.stage]; exact hl.stage_apart l m hp hm hne.symm
  · exact fun m hne he => hne (Option.some.inj he)

/-- **Re-planning keeps the invariant.** -/
theorem inv (hi : Inv p s) (hp : s.Pending p l) (hs : (s.loads l).state = .loading)
    (hplace : Placement p s (s.bytesOf p l) (some l) offset victims) : Inv p t := by
  have hentry := h.entry
  have hlayout := (h.reserves hi.layout hi.retention hp hs hplace).layout hi.layout hi.retention
  refine ⟨hlayout, ⟨?_, ?_, ?_⟩, ⟨?_, ?_⟩, ⟨?_, ?_, ?_, ?_⟩,
    ⟨?_, ?_, ?_, ?_⟩, ?_, ⟨?_, ?_, ?_⟩, ?_⟩
  · intro e
    rw [h.resident, h.keyOf, h.entry, show t.canonical = s.canonical by rw [h.rest]]
    exact hi.canonical.entry e
  · intro m
    rw [h.pending, h.keyOf, h.entry, show t.canonical = s.canonical by rw [h.rest]]
    exact hi.canonical.load m
  · rw [show t.canonical = s.canonical by rw [h.rest], show t.calls = s.calls by rw [h.rest]]
    exact hi.canonical.call
  · intro e he
    rw [show t.byRecency = s.byRecency by rw [h.rest]] at he
    exact (h.resident e).mpr (hi.retention.resident e he)
  · rw [show t.byRecency = s.byRecency by rw [h.rest]]
    refine hi.retention.sorted.imp fun {a b} hless => ?_
    rw [h.entry, h.entry]; exact hless
  · simp only [show t.stats = s.stats by rw [h.rest], h.entries, h.bytesOf, hentry]
    exact hi.counters.resident
  · simp only [show t.stats = s.stats by rw [h.rest], h.pendingMap, h.bytesOf]
    exact hi.counters.reserved
  · simp only [show t.stats = s.stats by rw [h.rest], h.pendingMap, h.bytesOf]
    exact hi.counters.staging
  · simp only [show t.stats = s.stats by rw [h.rest], h.pendingMap]
    exact hi.counters.active
  · intro e
    simp only [hentry, leaseCount, show t.leases = s.leases by rw [h.rest],
      completionPin, h.state, h.useCount]
    exact hi.pins.count e
  · intro j x
    rw [show t.leases = s.leases by rw [h.rest], h.resident, h.entry]
    exact hi.pins.lease j x
  · intro j x
    rw [show t.leases = s.leases by rw [h.rest], show t.nextLease = s.nextLease by rw [h.rest]]
    exact hi.pins.lease_fresh j x
  · intro m
    rw [State.Completing, h.state, h.useCount, h.resident, h.entry]
    exact hi.pins.completing m
  · intro m
    rw [h.useCount, holders, show t.calls = s.calls by rw [h.rest], h.pendingMap]
    exact hi.uses m
  · intro j c hc
    rw [show t.calls = s.calls by rw [h.rest]] at hc
    have hok := hi.calls.ok j c hc
    cases c with
    | admission d => exact hok
    | coalesced d m =>
      simpa only [CallOk, hentry, show t.next = s.next by rw [h.rest], h.pending, h.state,
        h.error] using hok
    | reading d m done =>
      simpa only [CallOk, hentry, h.pending, h.state, h.stagingOffset,
        show t.staging = s.staging by rw [h.rest]] using hok
    | readFailed d m done error => simpa only [CallOk, hentry, h.pending, h.state] using hok
    | copying d m done =>
      have hml : m ≠ l := by rintro rfl; rw [hok.2.1] at hs; cases hs
      have hload := h.load m hml
      simpa only [CallOk, hentry, h.pending, hload, show t.staging = s.staging by rw [h.rest],
        show t.arena = s.arena by rw [h.rest]] using hok
  · rw [show t.calls = s.calls by rw [h.rest]]; exact hi.calls.owner
  · intro m
    rw [show t.calls = s.calls by rw [h.rest], h.pending]; exact hi.calls.owned m
  · intro e
    rw [h.resident, h.bytesOf, h.entry, show t.arena = s.arena by rw [h.rest]]
    exact hi.contents e

end Replanned

/-! ## An owner's own progress -/

variable {t : Tid} {c c' : Call} {u : State} {d : DescId} {n : Nat} {x : SourceExtent}

theorem holders_update (hc : s.calls.find? t = some c)
    (hload : c'.load? = c.load?) (m : LoadId) : (s.setCall t c').holders m = s.holders m := by
  rw [holders_erase hc m, ← hload]
  exact OrdMap.sumBy_insert_erase _ _ _ _

/-- The steps of an owner that write its own memory and advance its call. -/
structure Progress (s u : State) (t : Tid) (c : Call) : Prop extends SameLayout s u where
  canonical : u.canonical = s.canonical
  byRecency : u.byRecency = s.byRecency
  heap : u.heap = s.heap
  leases : u.leases = s.leases
  nextLease : u.nextLease = s.nextLease
  stats : u.stats = s.stats
  useCount : ∀ l, (u.loads l).useCount = (s.loads l).useCount
  calls : u.calls = s.calls.insert t c

theorem Calls.update (hk : Calls p s) (hc : s.calls.find? t = some c)
    (hcalls : u.calls = s.calls.insert t c') (howned : c'.owned? = c.owned?)
    (hpend : ∀ m, u.Pending p m → s.Pending p m) (hok : CallOk p u c')
    (hothers : ∀ i c'', i ≠ t → s.calls.find? i = some c'' → CallOk p u c'') : Calls p u := by
  have hfind : ∀ i c'', u.calls.find? i = some c'' →
      (i = t ∧ c'' = c') ∨ (i ≠ t ∧ s.calls.find? i = some c'') := by
    intro i c'' hi'
    rw [hcalls] at hi'
    exact calls_setCall hi'
  have hback : ∀ i c'' m, u.calls.find? i = some c'' → c''.owned? = some m →
      ∃ c₀, s.calls.find? i = some c₀ ∧ c₀.owned? = some m := by
    intro i c'' m hi' ho
    rcases hfind i c'' hi' with ⟨rfl, rfl⟩ | ⟨_, hold⟩
    · exact ⟨c, hc, howned ▸ ho⟩
    · exact ⟨c'', hold, ho⟩
  refine ⟨?_, ?_, ?_⟩
  · intro i c'' hi'
    rcases hfind i c'' hi' with ⟨_, rfl⟩ | ⟨hne, hold⟩
    · exact hok
    · exact hothers i c'' hne hold
  · intro i i' c₁ c₂ m h₁ h₂ ho₁ ho₂
    obtain ⟨a, ha, hao⟩ := hback i c₁ m h₁ ho₁
    obtain ⟨b, hb, hbo⟩ := hback i' c₂ m h₂ ho₂
    exact hk.owner i i' a b m ha hb hao hbo
  · intro m hm
    obtain ⟨i, c'', hi', ho⟩ := hk.owned m (hpend m hm)
    rw [hcalls]
    by_cases hit : i = t
    · subst hit
      rw [hc] at hi'; cases hi'
      exact ⟨i, c', OrdMap.find?_insert_self _ _ _, howned ▸ ho⟩
    · exact ⟨i, c'', by rw [OrdMap.find?_insert_of_ne _ _ hit]; exact hi', ho⟩

theorem Canonical.update (hk : Canonical p s) (hc : s.calls.find? t = some c)
    (hcalls : u.calls = s.calls.insert t c') (hdesc : c'.desc = c.desc)
    (hcanon : u.canonical = s.canonical) (i : Tid) (c'' : Call) (hi : u.calls.find? i = some c'') :
    u.canonical.find? (p.descriptor c''.desc).key = some c''.desc := by
  rw [hcanon]
  rw [hcalls] at hi
  rcases calls_setCall hi with ⟨_, rfl⟩ | ⟨_, hold⟩
  · rw [hdesc]; exact hk.call t c hc
  · exact hk.call i c'' hold

theorem Inv.progress (hi : Inv p s) (h : Progress s u t c') (hc : s.calls.find? t = some c)
    (hload : c'.load? = c.load?) (howned : c'.owned? = c.owned?) (hdesc : c'.desc = c.desc)
    (hok : CallOk p u c') (hothers : ∀ i c'', i ≠ t → s.calls.find? i = some c'' → CallOk p u c'')
    (hcontents : Contents p u) : Inv p u where
  layout := hi.layout.transfer h.toSameLayout
  canonical := hi.canonical.transfer h.toSameLayout (fun _ _ hk => h.canonical ▸ hk)
    (hi.canonical.update hc h.calls hdesc h.canonical)
  retention := hi.retention.transfer h.toSameLayout h.byRecency fun a b => by rw [h.heap]
  counters := hi.counters.transfer h.toSameLayout (by rw [h.stats]) (by rw [h.stats])
    (by rw [h.stats]) (by rw [h.stats])
  pins := hi.pins.transfer h.toSameLayout (fun e => by rw [h.heap]) h.useCount h.leases h.nextLease
  uses m := by
    have hm := holders_update hc hload m
    rw [h.useCount, holders, h.calls, h.pendingMap, hi.uses m, ← hm]; rfl
  calls := hi.calls.update hc h.calls howned (fun m => (h.pending m).mp) hok hothers
  contents := hcontents

/-! ## Storage reads -/

theorem bytesBefore_le (p : Params) (d : DescId) (n : Nat) :
    bytesBefore p d n ≤ (p.descriptor d).bytes := by
  have hsplit := congrArg (fun l => (l.map SourceExtent.length).sum)
    (List.take_append_drop n (p.descriptor d).extents)
  simp only [List.map_append, List.sum_append, (p.descriptor d).bytes_eq] at hsplit
  rw [bytesBefore]
  omega

theorem take_succ_of_getElem? (h : (p.descriptor d).extents[n]? = some x) :
    (p.descriptor d).extents.take (n + 1) = (p.descriptor d).extents.take n ++ [x] := by
  rw [List.take_add_one, h]; rfl

theorem bytesBefore_succ (h : (p.descriptor d).extents[n]? = some x) :
    bytesBefore p d (n + 1) = bytesBefore p d n + x.length := by
  simp [bytesBefore, take_succ_of_getElem? h]

theorem bytesBefore_all (p : Params) (d : DescId) :
    bytesBefore p d (p.descriptor d).extents.length = (p.descriptor d).bytes := by
  rw [bytesBefore, List.take_length, (p.descriptor d).bytes_eq]

theorem stage_read_apart (hl : Layout p s) {m} (hp : s.Pending p l) (hm : s.Pending p m)
    (hne : m ≠ l) {at' bs} (hlow : (s.loads l).stagingOffset ≤ at')
    (hhigh : at' + bs.length ≤ (s.stage p l).stop) (hn : n ≤ s.bytesOf p m) :
    (s.staging.write at' bs).read (s.loads m).stagingOffset n =
      s.staging.read (s.loads m).stagingOffset n := by
  apply Memory.read_write_apart
  have hap := hl.stage_apart m l hm hp hne
  simp only [Region.Apart, Region.stop, stage, hl.result] at hap hhigh ⊢
  omega

theorem callOk_of_stage_write (hi : Inv p s) {i c''} (h : Progress s u t c')
    (hc : s.calls.find? t = some c) (ho : c.owned? = some l) (hp : s.Pending p l) {at' bs}
    (hlow : (s.loads l).stagingOffset ≤ at') (hhigh : at' + bs.length ≤ (s.stage p l).stop)
    (hstaging : u.staging = s.staging.write at' bs) (harena : u.arena = s.arena) (hne : i ≠ t)
    (hi' : s.calls.find? i = some c'') : CallOk p u c'' := by
  have hok := hi.calls.ok i c'' hi'
  have hother : ∀ m, c''.owned? = some m → m ≠ l := fun m hm he =>
    hne (hi.calls.owner i t c'' c l hi' hc (he ▸ hm) ho)
  cases c'' with
  | admission d => exact hok
  | coalesced d m =>
    simpa only [CallOk, h.desc, h.next, h.pending, h.state, h.error] using hok
  | reading d m done =>
    obtain ⟨hpm, hs, hd, hle, hread⟩ := hok
    refine ⟨(h.pending m).mpr hpm, (h.state m).trans hs, (h.desc m).trans hd, hle, ?_⟩
    rw [hstaging, h.stagingOffset, stage_read_apart hi.layout hp hpm (hother m rfl) hlow hhigh]
    · exact hread
    · rw [bytesOf, hd]; exact bytesBefore_le p d done
  | readFailed d m done error =>
    simpa only [CallOk, h.desc, h.pending, h.state] using hok
  | copying d m done =>
    obtain ⟨hpm, hs, hd, hle, hread, hcopied⟩ := hok
    refine ⟨(h.pending m).mpr hpm, (h.state m).trans hs, (h.desc m).trans hd, hle, ?_, ?_⟩
    · rw [hstaging, h.stagingOffset, stage_read_apart hi.layout hp hpm (hother m rfl) hlow hhigh]
      · exact hread
      · rw [bytesOf, hd]
    · rw [harena, h.claimOffset]; exact hcopied

theorem stage_write_progress (s : State) (t : Tid) (c : Call) (at' : Nat) (bs : List UInt8) :
    Progress s ({ s with staging := s.staging.write at' bs }.setCall t c) t c := by
  constructor
  case toSameLayout => constructor <;> intros <;> rfl
  all_goals intros; rfl

theorem destination_in (hi : Inv p s) {done} (hd : (s.heap l).desc = d)
    (hx : (p.descriptor d).extents[done]? = some x) (hn : n ≤ x.length) :
    s.destination p d l done + n ≤ (s.stage p l).stop := by
  have hle := bytesBefore_le p d (done + 1)
  rw [bytesBefore_succ hx] at hle
  simp only [destination, stage, Region.stop, hi.layout.result, bytesOf, hd]
  omega

/-- **A storage read keeps the invariant.** -/
theorem Inv.readExtent (hi : Inv p s) {done} (hc : s.calls.find? t = some (.reading d l done))
    (hx : (p.descriptor d).extents[done]? = some x) : Inv p (s.readExtent p t d l done x) := by
  obtain ⟨hp, hs, hd, _, hread⟩ := hi.calls.ok t _ hc
  have h := stage_write_progress s t (.reading d l (done + 1)) (s.destination p d l done)
    (extentBytes p x)
  have hin : s.destination p d l done + (extentBytes p x).length ≤ (s.stage p l).stop := by
    rw [length_extentBytes]; exact destination_in hi hd hx le_rfl
  refine hi.progress h hc rfl rfl rfl ?_ ?_ (hi.contents.transfer h.toSameLayout rfl)
  · have hlt : done < (p.descriptor d).extents.length :=
      (List.getElem?_eq_some_iff.mp hx).1
    refine ⟨(h.pending l).mpr hp, hs, hd, hlt, ?_⟩
    have happend := Memory.read_write_append (extentBytes p x) hread
    rw [length_extentBytes] at happend
    rw [bytesBefore_succ hx, take_succ_of_getElem? hx, List.flatMap_append, List.flatMap_singleton]
    exact happend
  · intro i c'' hne hi'
    exact callOk_of_stage_write hi h hc rfl hp (Nat.le_add_right _ _) hin rfl rfl hne hi'

/-- **So does one that throws.** -/
theorem Inv.readThrows (hi : Inv p s) {done junk} (text : String)
    (hc : s.calls.find? t = some (.reading d l done))
    (hx : (p.descriptor d).extents[done]? = some x) (hjunk : junk.length ≤ x.length) :
    Inv p (s.readThrows p t d l done junk text) := by
  obtain ⟨hp, hs, hd, _, _⟩ := hi.calls.ok t _ hc
  have h := stage_write_progress s t (.readFailed d l done (.readFailed text))
    (s.destination p d l done) junk
  refine hi.progress h hc rfl rfl rfl ⟨(h.pending l).mpr hp, hs, hd⟩ ?_
    (hi.contents.transfer h.toSameLayout rfl)
  intro i c'' hne hi'
  exact callOk_of_stage_write hi h hc rfl hp (Nat.le_add_right _ _)
    (destination_in hi hd hx hjunk) rfl rfl hne hi'

end ExpertStreaming.RamCache
