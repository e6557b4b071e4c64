import ExpertStreaming.RamCache.Drain
import ExpertStreaming.RamCache.Indexes

/-! # The RAM expert cache: what is out can come back

From any state of a gentle run the calls in progress can be driven to their end
and the leases given back, without another `acquire` or a `clear`. In the state
that is left every entry may be evicted, so a component that fits the cache at all
is admitted, read, published and leased.
-/
namespace ExpertStreaming.RamCache
open Lib OrdMap

variable {p : Params} {s u w : State} {t : Tid} {d : DescId} {l : LoadId} {a : Action}
  {r : State × Outcome}

def Action.finishes (a : Action) : Bool :=
  a.carriesOn || match a with | .release _ => true | _ => false

/-- Both invariants. -/
structure Good (p : Params) (s : State) : Prop where
  inv : Inv p s
  coherent : Coherent p s

abbrev Finishes (p : Params) (s u : State) : Prop :=
  Leads (Step p) (fun label => label.1.finishes = true) s u

theorem Good.step {o} (hg : Good p s) (h : Step p s (a, o) u) (ha : a ≠ .clear) :
    Good p u := by
  have hstep := step_cases hg.inv h
  refine ⟨hstep.inv hg.inv, (hstep.sound hg.coherent hg.inv ?_).coherent⟩
  intro hlabel
  exact absurd (Prod.mk.inj hlabel).1 ha

theorem Finishes.step {o} (h : Step p s (a, o) u) (ha : a.finishes = true) :
    Finishes p s u := Leads.of_step h ha

theorem Finishes.of_carriesOn (h : CarriesOn p s u) : Finishes p s u :=
  h.mono fun a ha => by simp only [Action.finishes, ha, Bool.true_or]

theorem ne_clear_of_finishes (h : a.finishes = true) : a ≠ .clear := by
  rintro rfl
  cases h

theorem Finishes.good (h : Finishes p s u) (hg : Good p s) : Good p u := by
  refine h.invariant (I := Good p) (fun s label s' hg hs ha => ?_) hg
  exact hg.step hs (ne_clear_of_finishes ha)

/-! ## Giving everything back -/

theorem copying_leased {n} (hg : Good p s) (hc : s.calls.find? t = some (.copying d l n)) :
    ∃ u v i, Finishes p s u ∧ Step p u (.finishCopy t, .leased i) v ∧
      u.calls.find? t = some (.copying d l (p.descriptor d).bytes) := by
  obtain ⟨u, v, o, hon, hs, hcu, -, ⟨i, rfl⟩ | ⟨w, error, touched⟩⟩ := copying_ends hg.inv hc
  · exact ⟨u, v, i, .of_carriesOn hon, hs, hcu⟩
  · have hgu := (Finishes.of_carriesOn hon).good hg
    cases touched.ok hgu.coherent (hgu.inv.copying_resident hcu).1

theorem release_all (n : Nat) : ∀ {s : State}, Good p s → (∀ t, s.calls.find? t = none) →
    (s.leases.sumBy fun _ _ => 1) = n →
    ∃ u, Finishes p s u ∧ (∀ t, u.calls.find? t = none) ∧ ∀ i, u.leases.find? i = none := by
  induction n with
  | zero =>
    intro s hg hcalls hn
    refine ⟨s, .refl s, hcalls, fun i => ?_⟩
    cases hx : s.leases.find? i with
    | none => rfl
    | some x =>
      have hle := le_sumBy (fun _ _ => 1) hx
      omega
  | succ n ih =>
    intro s hg hcalls hn
    obtain ⟨i, x, hx⟩ : ∃ i x, s.leases.find? i = some x := by
      by_contra hno
      push Not at hno
      have hzero := sumBy_eq_zero (f := fun _ _ => 1) fun i x hx => absurd hx (hno i x)
      omega
    have hs : Step p s (.release i, .released) (s.release i x) := by
      simp only [Step, RamCache.step, hx]
    have hsum := sumBy_erase (fun _ _ => 1) hx
    obtain ⟨u, hleads, hcu, hlu⟩ := ih (hg.step hs (by simp)) hcalls
      (show (s.leases.erase i).sumBy _ = n by omega)
    exact ⟨u, .trans (Finishes.step hs rfl) hleads, hcu, hlu⟩

/-! ## The state that is left -/

theorem Inv.unpinned (hi : Inv p s) (hleases : ∀ i, s.leases.find? i = none)
    (hcalls : ∀ i c, s.calls.find? i = some c → c.owned?.isSome) (e : EntryId) :
    (s.heap e).pins = 0 := by
  have hnotready : ∀ {m}, s.Pending p m → (s.loads m).state ≠ .ready := by
    intro m hm hready
    rcases hi.layout.load_phase m hm with hload | hcopy
    · rw [hload.1] at hready; cases hready
    · rw [hcopy.1] at hready; cases hready
  have hlease : s.leaseCount e = 0 :=
    sumBy_eq_zero fun i x hx => by rw [hleases i] at hx; cases hx
  have hpin : s.completionPin e = 0 := by
    refine if_neg fun ⟨hready, hheld⟩ => ?_
    have hholders : s.holders e = 0 := sumBy_eq_zero fun i c hc => by
      obtain ⟨m, hm⟩ := Option.isSome_iff_exists.mp (hcalls i c hc)
      refine if_neg fun hload => ?_
      rw [Call.load_of_owned hm] at hload
      cases hload
      have hok := hi.calls.ok i c hc
      cases c with
      | admission d => cases hm
      | coalesced d m => cases hm
      | reading d m n => cases hm; exact hnotready hok.1 hready
      | readFailed d m n error => cases hm; exact hnotready hok.1 hready
      | copying d m n => cases hm; exact hnotready hok.1 hready
    have hmap : (s.pending.sumBy fun _ m => if m = e then 1 else 0) = 0 :=
      sumBy_eq_zero fun k m hm => if_neg fun hme =>
        hnotready (hi.layout.pending_of_find (hme ▸ hm)) hready
    rw [hi.uses e, hholders, hmap] at hheld
    exact absurd hheld (lt_irrefl 0)
  rw [hi.pins.count e, hlease, hpin]

theorem Inv.idle_of_no_calls (hi : Inv p s) (hcalls : ∀ t, s.calls.find? t = none) :
    s.pending.isEmpty = true := by
  rw [OrdMap.isEmpty_iff]
  intro k
  cases hm : s.pending.find? k with
  | none => rfl
  | some m =>
    obtain ⟨i, c, hc, -⟩ := hi.calls.owned m (hi.layout.pending_of_find hm)
    rw [hcalls i] at hc; cases hc

theorem Good.room (hg : Good p s) (hidle : s.pending.isEmpty = true)
    (hfree : ∀ e, (s.heap e).pins = 0) {bytes} (hfits : bytes ≤ p.config.capacityBytes) :
    Set.Ico 0 (0 + bytes) ⊆ (s.arenaView p none).openCells (s.arenaView p none).candidates := by
  have hnopend : ∀ m, ¬ s.Pending p m := by
    intro m hm
    rw [State.Pending, isEmpty_iff.mp hidle] at hm; cases hm
  have hl := hg.inv.layout
  intro x hx
  have hend : 0 + bytes ≤ p.config.capacityBytes := by omega
  refine ⟨lt_of_lt_of_le hx.2 hend, ?_, ?_⟩
  · intro r hr
    obtain ⟨m, hm, -⟩ := hl.mem_reservations.mp hr
    exact absurd hm (hnopend m)
  · intro r hr hin
    obtain ⟨e, he, rfl⟩ := hl.mem_resident.mp hr
    refine ⟨(e, s.region p e), mem_candidates.mpr ⟨hg.coherent.listed e he, ?_, rfl⟩, hin⟩
    refine evictable_iff.mpr ⟨?_, hfree e, .inl ?_⟩
    · cases hready : (s.heap e).ready with
      | true => rfl
      | false => exact absurd (hg.coherent.unready e he hready) (hnopend e)
    · cases hmark : (s.heap e).reservedBy with
      | none => rfl
      | some m => exact absurd (hl.reserved e m he hmark).1 (hnopend m)

/-! ## The canonical table -/

theorem Hit.canonical {e} (h : Hit p s e d r) : r.1.canonical = s.canonical := by
  cases h with
  | threw touched => exact touched.reorders.canonical
  | leased touched => exact touched.reorders.canonical

theorem Settled.canonical (h : Settled p s l w) : w.canonical = s.canonical := by
  cases h with
  | kept => rfl
  | moved => rfl

theorem Stepped.canonical (h : Stepped p s a r) (hi : Inv p s) (ha : a.finishes = true) :
    r.1.canonical = s.canonical := by
  cases h with
  | acquire outside acquired => cases ha
  | wake call entering attempted =>
    cases attempted with
    | hit found ready hit => exact hit.canonical
    | coalesced misses found => rfl
    | noRoom misses quiet full => rfl
    | waits misses busy => rfl
    | mismatch misses bad => rfl
    | admitted misses admissible sources => rfl
  | @join t d l r call done joined =>
    cases joined with
    | failed found => exact (@dropLoad_spec (s.leave t) l (hi.layout.result l)).canonical
    | @hit u o none hit =>
      obtain ⟨hres, hready, hd⟩ := hi.joined_ready call done none
      have hu := hit.inv hi hres hready hd
      exact (@dropLoad_spec (u.leave t) l (hu.layout.result l)).canonical.trans hit.canonical
  | readExtent call extent => rfl
  | readThrows call extent short => cases ha
  | @finishRead t d l r call finished =>
    have hi' := hi.addBytesRead d (p.descriptor d).extents.length
    obtain ⟨hp, hs, -⟩ := hi'.calls.ok t _ call
    cases finished with
    | leasedAway leased =>
      refine (failLoad_spec (fun m => ?_) t l _).canonical
      exact hi'.layout.result m
    | duplicate settled found =>
      refine ((failLoad_spec (fun m => ?_) t l _).canonical).trans settled.canonical
      exact (settled.inv hi' hp hs).layout.result m
    | published settled published => exact published.canonical.trans settled.canonical
  | @readFailed t d l n error call =>
    refine (failLoad_spec (fun m => ?_) t l _).canonical
    exact hi.layout.result m
  | copyByte call more => rfl
  | @finishCopy t d l r call finished =>
    cases finished with
    | threw touched =>
      have hu := hi.reorders touched.reorders
      exact (failLoad_spec hu.layout.result t l _).canonical.trans touched.reorders.canonical
    | @leased u touched =>
      have hq := touched.reorders.quiet
      have hu := hi.reorders touched.reorders
      have herror : (u.loads l).error = none :=
        (hq.error l).trans (hi.layout.load_error l (hi.calls.ok t _ call).1)
      exact (complete_spec hu.layout.result herror t d).canonical.trans touched.reorders.canonical
  | tryAcquire acquired => cases ha
  | erase key => cases ha
  | clear => cases ha
  | release found => rfl

theorem Finishes.canonical (h : Finishes p s u) (hi : Inv p s) : u.canonical = s.canonical := by
  obtain ⟨evs, hrun, hall⟩ := h
  have hkept := hrun.invariant_of (I := fun x => Inv p x ∧ x.canonical = s.canonical)
    (C := fun ev => ev.label.1.finishes = true)
    (fun x a x' hx hs ha => ⟨hx.1.step hs, ((step_cases hx.1 hs).canonical hx.1 ha).trans hx.2⟩)
    hall ⟨hi, rfl⟩
  exact hkept.1.2

/-! ## Readmission -/

/-- A descriptor the cache can serve: it fits, with registered sources and a key of its own. -/
structure Servable (p : Params) (s : State) (d : DescId) : Prop where
  capacity : (p.descriptor d).bytes ≤ p.config.capacityBytes
  staging : (p.descriptor d).bytes ≤ p.config.stagingBytes
  sources : sourcesMatch p d = true
  canonical : (s.canonical.find? (p.descriptor d).key).getD d = d

/-- Thread `t` returns from `acquire` with a lease on `d`, and no `clear` happened. -/
def Serves (p : Params) (s : State) (t : Tid) (d : DescId) : Prop :=
  ∃ evs u a i v, Trace (Step p) s evs u ∧ (∀ ev ∈ evs, ev.label.1 ≠ .clear) ∧
    a.thread? = some t ∧ u.asked a = some d ∧ Step p u (a, .leased i) v

theorem Serves.after_step {o} (h : Step p s (a, o) u) (ha : a ≠ .clear) (hserves : Serves p u t d) :
    Serves p s t d := by
  obtain ⟨evs, v, b, i, w, hrun, hall, ht, hasked, hlast⟩ := hserves
  refine ⟨_, v, b, i, w, .cons h hrun, ?_, ht, hasked, hlast⟩
  intro ev hev
  rcases List.mem_cons.mp hev with rfl | hev
  · exact ha
  · exact hall ev hev

theorem Serves.after (h : Finishes p s u) (hserves : Serves p u t d) : Serves p s t d := by
  obtain ⟨evs, hrun, hall⟩ := h
  obtain ⟨evs', v, a, i, w, hrun', hall', ht, hasked, hlast⟩ := hserves
  refine ⟨evs ++ evs', v, a, i, w, hrun.append hrun', ?_, ht, hasked, hlast⟩
  intro ev hev
  rcases List.mem_append.mp hev with hev | hev
  · exact ne_clear_of_finishes (hall ev hev)
  · exact hall' ev hev

theorem serves_reading {n} (hg : Good p s) (hc : s.calls.find? t = some (.reading d l n))
    (halone : ∀ i, (s.calls.erase t).find? i = none) (hleases : ∀ i, s.leases.find? i = none) :
    Serves p s t d := by
  obtain ⟨-, -, -, hle, -⟩ := hg.inv.calls.ok t _ hc
  obtain ⟨u, hon, hcu, herase, hlu⟩ :=
    read_all ((p.descriptor d).extents.length - n) hg.inv hc (by omega)
  have hleads := Finishes.of_carriesOn hon
  have hgu := hleads.good hg
  have hunpinned : ∀ e, (u.heap e).pins = 0 := by
    refine hgu.inv.unpinned (fun i => hlu ▸ hleases i) fun i c hci => ?_
    by_cases hit : i = t
    · rw [hit, hcu] at hci; cases hci; rfl
    · have hnone := halone i
      rw [← herase, find?_erase, if_neg hit, hci] at hnone
      cases hnone
  obtain ⟨v, o, hs, ⟨-, ⟨x, -, hpin⟩ | htaken⟩ | hcv⟩ := finish_read hgu.inv hcu
  · exact absurd (hunpinned x) hpin
  · rw [hgu.coherent.key_free hgu.inv hcu] at htaken; cases htaken
  · have hgv := hgu.step hs (by simp)
    obtain ⟨v', w, i, ⟨evs, hrun, hall⟩, hs', hcv'⟩ :=
      copying_leased hgv (hcv ▸ find?_insert_self _ _ _)
    refine .after hleads (.after_step hs (by simp) ⟨evs, v', .finishCopy t, i, w, hrun,
      fun ev hev => ne_clear_of_finishes (hall ev hev), rfl, asked_of_call hcv', hs'⟩)

/-- **In a quiet cache every servable descriptor is served.** -/
theorem serves_quiet (hg : Good p s) (hcalls : ∀ i, s.calls.find? i = none)
    (hleases : ∀ i, s.leases.find? i = none) (hd : Servable p s d) (t : Tid) :
    Serves p s t d := by
  have hcases := acquire_cases hg.inv (hcalls t) (some d)
  have hs : RamCache.step p s (.acquire t (some d)) = some (s.acquire p t (some d)) := by
    simp only [RamCache.step, hcalls t]
  generalize s.acquire p t (some d) = r at hs hcases
  have hpos := hd.capacity.trans p.config.capacity_le
  cases hcases with
  | tooLarge large =>
    have h₁ := hd.capacity
    have h₂ := hd.staging
    omega
  | reused found other =>
    have hsame := hd.canonical
    rw [found] at hsame
    exact absurd hsame other
  | observeThrew observed =>
    cases observed.ok (hg.coherent.register d) (hg.inv.register d).retention
  | @attempted _ u _ registered observe entering attempted =>
    have hobs := observe_spec registered.retention (p.descriptor d).key
    rw [observe] at hobs
    have hq := hobs.reorders.quiet
    have hgu : Good p u := ⟨registered.reorders hobs.reorders,
      (hg.coherent.register d).reorders hobs.reorders (hobs.perm rfl)⟩
    have hidle : u.pending.isEmpty = true := by
      rw [hq.pendingMap]; exact hg.inv.idle_of_no_calls hcalls
    have hcu : ∀ i, u.calls.find? i = none := fun i => by rw [hq.calls]; exact hcalls i
    have hlu : ∀ i, u.leases.find? i = none := fun i => by rw [hq.leases]; exact hleases i
    cases attempted with
    | @hit e r found ready hit =>
      have hres : u.Resident p e := hgu.inv.layout.resident_of_find found
      cases hit with
      | threw touched => cases touched.ok (hgu.coherent.leave t) hres
      | leased touched => exact ⟨[], s, _, _, _, .nil s, by simp, rfl, rfl, hs⟩
    | coalesced misses found => rw [isEmpty_iff.mp hidle] at found; cases found
    | noRoom misses quiet full =>
      have hfree : ∀ e, (u.heap e).pins = 0 :=
        hgu.inv.unpinned hlu fun i c hc => by rw [hcu i] at hc; cases hc
      exact absurd (hgu.room hidle hfree hd.capacity) (full 0 ⟨0, rfl⟩)
    | waits misses busy => rw [hidle] at busy; cases busy
    | mismatch misses bad => rw [hd.sources] at bad; cases bad
    | admitted misses admissible sources =>
      have hstep : Step p s (.acquire t (some d), .running) (u.reserve p t d _ _ _) := hs
      refine .after_step hstep (by simp) (serves_reading (hg.step hstep (by simp))
        (find?_insert_self u.calls t (.reading d u.next 0)) (fun i => ?_) hlu)
      show ((u.calls.insert t _).erase t).find? i = none
      rw [erase_insert, find?_erase, hcu i]
      split <;> rfl

/-- **From any good state a servable descriptor can be served later.** -/
theorem Good.serves (hg : Good p s) (hd : Servable p s d) (t : Tid) : Serves p s t d := by
  obtain ⟨u, hon, hcalls⟩ := drain_all _ hg.inv rfl
  have hdrained := Finishes.of_carriesOn hon
  have hgu := hdrained.good hg
  obtain ⟨v, hreleased, hcv, hlv⟩ := release_all _ hgu hcalls rfl
  have hleads : Finishes p s v := hdrained.trans hreleased
  refine .after hleads (serves_quiet (hleads.good hg) hcv hlv ?_ t)
  exact ⟨hd.capacity, hd.staging, hd.sources, by rw [hleads.canonical hg.inv]; exact hd.canonical⟩

/-! ## Gentle runs -/

/-- What the indexes of a state say, and what can still happen from it. -/
structure WellIndexed (p : Params) (s : State) : Prop extends SameEntries p s where
  unready : ∀ k e, s.entries.find? k = some e → (s.heap e).ready = false →
    ∃ k' l, s.pending.find? k' = some l ∧ (s.loads l).result = e
  observed : p.config.frequencyRetention = true →
    ∀ k e, s.entries.find? k = some e → s.Observes k
  serves : ∀ d, Servable p s d → ∀ t, Serves p s t d

theorem Good.wellIndexed (hg : Good p s) : WellIndexed p s where
  toSameEntries := hg.coherent.sameEntries hg.inv
  unready k e hf hready := ⟨_, e,
    hg.coherent.unready e (hg.inv.layout.resident_of_find hf) hready, hg.inv.layout.result e⟩
  observed hfr k e hf := by
    have hobs := hg.coherent.observed hfr e (hg.inv.layout.resident_of_find hf)
    rwa [hg.inv.layout.entry_key k e hf] at hobs
  serves _ hd t := hg.serves hd t

/-- **In a run whose `clear`s overtake no waiting caller the indexes agree in every
state, no internal exception is thrown, and every servable key can be admitted.** -/
theorem gentle_runs_stay_indexed {s₀ : State} {evs : List CacheEvent} (hinit : Init s₀)
    (run : Trace (Step p) s₀ evs s) (hgentle : ∀ ev ∈ evs, Gentle p ev) :
    WellIndexed p s ∧
      ∀ ev ∈ evs, ∀ error, ev.label.2 = .threw error → error.isInternal = false := by
  obtain ⟨⟨hi, hk⟩, hevs⟩ := gentle_run hinit run hgentle
  refine ⟨Good.wellIndexed ⟨hi, hk⟩, ?_⟩
  intro ev hev error hout
  obtain ⟨⟨hib, hkb⟩, -, hs⟩ := hevs ev hev
  exact ((step_cases hib hs).sound hkb hib (hgentle ev hev)).external error hout

theorem indexed_in_tinyCache :
    ∃ evs s, exec (tinyCache true) (.initial zeroed zeroed) (loadSteps 0 3 ++ [.finishCopy 0]) =
        some (evs, s) ∧ s.entries.size = 1 ∧ WellIndexed (tinyCache true) s := by
  have hsize : ((exec (tinyCache true) (.initial zeroed zeroed)
      (loadSteps 0 3 ++ [.finishCopy 0])).map fun r => r.2.entries.size) = some 1 := by
    decide +kernel
  obtain ⟨⟨evs, s⟩, hexec, hone⟩ := Option.map_eq_some_iff.mp hsize
  refine ⟨evs, s, hexec, hone, (gentle_runs_stay_indexed ⟨zeroed, zeroed, rfl⟩ (exec_trace hexec)
    fun ev hev hclear => ?_).1⟩
  have hmem := List.mem_map_of_mem (f := fun ev : CacheEvent => ev.label.1) hev
  rw [execute_actions hexec, hclear] at hmem
  simp [loadSteps] at hmem

/-! ## A `clear` that overtakes a waiting caller -/

/-- The cache is cleared while thread 1 waits for staging space, and thread 1 goes on. -/
def overtaking : List Action :=
  [.acquire 0 (some 0), .acquire 1 (some 1), .readExtent 0, .finishRead 0, .copyByte 0,
    .finishCopy 0, .release 0, .clear, .wake 1, .readExtent 1, .finishRead 1, .copyByte 1,
    .finishCopy 1]

/-- An entry that is never ready, belongs to no load, and is missing from
`by_recency_` and `observations_`. -/
def State.Strands (s : State) (k : ExpertKey) (e : EntryId) : Prop :=
  s.entries.find? k = some e ∧ s.byOffset.find? (s.heap e).arenaOffset = some e ∧
    e ∉ s.byRecency ∧ (s.heap e).ready = false ∧ s.pending.find? k = none ∧
    s.observations.find? k = none

instance (s : State) (k : ExpertKey) (e : EntryId) : Decidable (s.Strands k e) := by
  unfold State.Strands; infer_instance

/-- The waiting caller fails with `std::out_of_range` and strands its entry, whose
key cannot be loaded again. -/
theorem overtaken_caller_strands_entry :
    ∃ evs s, exec (tinyCache true) (.initial zeroed zeroed) overtaking = some (evs, s) ∧
      evs.getLast?.map (fun ev => ev.label) = some (.finishCopy 1, .threw .observationMissing) ∧
      s.Strands ⟨0, 1, .gate⟩ 1 ∧
      ∃ evs' u, exec (tinyCache true) s [.acquire 1 (some 1), .readExtent 1, .finishRead 1] =
          some (evs', u) ∧
        evs'.getLast?.map (fun ev => ev.label) =
          some (.finishRead 1, .threw .duplicatePublication) := by
  have hrun : ((exec (tinyCache true) (.initial zeroed zeroed) overtaking).any fun r =>
      decide (r.1.getLast?.map (fun ev => ev.label) =
        some (.finishCopy 1, .threw .observationMissing)) &&
      decide (r.2.Strands ⟨0, 1, .gate⟩ 1) &&
      (exec (tinyCache true) r.2 [.acquire 1 (some 1), .readExtent 1, .finishRead 1]).any fun r' =>
        decide (r'.1.getLast?.map (fun ev => ev.label) =
          some (.finishRead 1, .threw .duplicatePublication))) = true := by
    decide +kernel
  obtain ⟨⟨evs, s⟩, hexec, hall⟩ := (Option.any_eq_true _ _).mp hrun
  simp only [Bool.and_eq_true, decide_eq_true_eq] at hall
  obtain ⟨⟨hlast, hstrands⟩, hagain⟩ := hall
  obtain ⟨⟨evs', u⟩, hexec', hlast'⟩ := (Option.any_eq_true _ _).mp hagain
  exact ⟨evs, s, hexec, hlast, hstrands, evs', u, hexec', of_decide_eq_true hlast'⟩

end ExpertStreaming.RamCache
