import ExpertStreaming.RamCache.Leases

/-! # The RAM expert cache: every call comes to an end

Whatever state the cache is in, the calls in progress can be carried on until none
is left, without another `acquire`. Nothing here needs the indexes to agree: a
call that meets a stranded entry ends too, with an exception.
-/
namespace ExpertStreaming.RamCache
open Lib OrdMap

variable {p : Params} {s u w : State} {t : Tid} {d : DescId} {l : LoadId} {a : Action}
  {r : State × Outcome}

def Action.carriesOn : Action → Bool
  | .wake _ | .join _ | .readExtent _ | .finishRead _ | .copyByte _ | .finishCopy _ => true
  | .acquire _ _ | .readThrows _ _ _ | .tryAcquire _ | .erase _ | .clear | .release _ => false

abbrev CarriesOn (p : Params) (s u : State) : Prop :=
  Leads (Step p) (fun label => label.1.carriesOn = true) s u

theorem CarriesOn.step {o} (h : Step p s (a, o) u) (ha : a.carriesOn = true) :
    CarriesOn p s u := Leads.of_step h ha

theorem CarriesOn.inv (h : CarriesOn p s u) (hi : Inv p s) : Inv p u :=
  h.invariant (fun _ _ _ hi hs _ => hi.step hs) hi

/-! ## Driving one call -/

theorem read_all (k : Nat) : ∀ {s : State} {n : Nat}, Inv p s →
    s.calls.find? t = some (.reading d l n) → (p.descriptor d).extents.length = n + k →
    ∃ u, CarriesOn p s u ∧ u.calls.find? t = some (.reading d l (p.descriptor d).extents.length) ∧
      u.calls.erase t = s.calls.erase t ∧ u.leases = s.leases := by
  induction k with
  | zero =>
    intro s n hi hc hn
    exact ⟨s, .refl s, hn ▸ hc, rfl, rfl⟩
  | succ k ih =>
    intro s n hi hc hn
    have hlt : n < (p.descriptor d).extents.length := by omega
    obtain ⟨x, hx⟩ : ∃ x, (p.descriptor d).extents[n]? = some x :=
      ⟨_, List.getElem?_eq_getElem hlt⟩
    have hs : Step p s (.readExtent t, .running) (s.readExtent p t d l n x) := by
      simp only [Step, RamCache.step, State.resume, hc, hx]
    obtain ⟨u, hon, hcu, herase, hleases⟩ := ih (hi.step hs)
      (find?_insert_self _ _ _) (by omega)
    exact ⟨u, (CarriesOn.step hs rfl).trans hon, hcu, herase.trans (erase_insert _ _ _),
      hleases⟩

theorem copy_all (k : Nat) : ∀ {s : State} {n : Nat}, Inv p s →
    s.calls.find? t = some (.copying d l n) → (p.descriptor d).bytes = n + k →
    ∃ u, CarriesOn p s u ∧ u.calls.find? t = some (.copying d l (p.descriptor d).bytes) ∧
      u.calls.erase t = s.calls.erase t := by
  induction k with
  | zero =>
    intro s n hi hc hn
    exact ⟨s, .refl s, hn ▸ hc, rfl⟩
  | succ k ih =>
    intro s n hi hc hn
    have hlt : n < (p.descriptor d).bytes := by omega
    have hs : Step p s (.copyByte t, .running) (s.copyByte t d l n) := by
      simp only [Step, RamCache.step, State.resume, hc, if_pos hlt]
    obtain ⟨u, hon, hcu, herase⟩ := ih (hi.step hs)
      (find?_insert_self _ _ _) (by omega)
    exact ⟨u, (CarriesOn.step hs rfl).trans hon, hcu, herase.trans (erase_insert _ _ _)⟩

theorem finish_copy (hi : Inv p s)
    (hc : s.calls.find? t = some (.copying d l (p.descriptor d).bytes)) :
    ∃ u o, Step p s (.finishCopy t, o) u ∧ u.calls = s.calls.erase t ∧
      ((∃ i, o = .leased i) ∨ ∃ w error, Touched p s l (w, some error)) := by
  have hcases := finishCopy_cases hi (hi.copying_resident hc).1 t d
  have hs : step p s (.finishCopy t) = some (s.finishCopy p t d l) := by
    simp only [RamCache.step, State.resume, hc, if_true]
  generalize s.finishCopy p t d l = r at hs hcases
  cases hcases with
  | @threw w error touched =>
    have hw := hi.reorders touched.reorders
    refine ⟨_, _, hs, ?_, .inr ⟨w, error, touched⟩⟩
    exact (failLoad_spec hw.layout.result t l error).calls.trans
      (congrArg (erase · t) touched.reorders.quiet.calls)
  | @leased u touched =>
    have hq := touched.reorders.quiet
    have hu := hi.reorders touched.reorders
    have herror : (u.loads l).error = none :=
      (hq.error l).trans (hi.layout.load_error l (hi.calls.ok t _ hc).1)
    refine ⟨_, _, hs, ?_, .inl ⟨_, rfl⟩⟩
    exact (complete_spec hu.layout.result herror t d).calls.trans
      (congrArg (erase · t) hq.calls)

theorem finish_read (hi : Inv p s)
    (hc : s.calls.find? t = some (.reading d l (p.descriptor d).extents.length)) :
    ∃ u o, Step p s (.finishRead t, o) u ∧
      (u.calls = s.calls.erase t ∧ ((∃ v ∈ (s.loads l).victims, (s.heap v).pins ≠ 0) ∨
          s.entries.contains (p.descriptor d).key = true) ∨
        u.calls = s.calls.insert t (.copying d l 0)) := by
  obtain ⟨hp, hs, hd, -⟩ := hi.calls.ok t _ hc
  have hcases := finishRead_cases hi hp hs hd t
  have hstep : step p s (.finishRead t) = some (s.finishRead p t d l) := by
    simp only [RamCache.step, State.resume, hc, if_true]
  generalize s.finishRead p t d l = r at hstep hcases
  have hi' := hi.addBytesRead d (p.descriptor d).extents.length
  cases hcases with
  | leasedAway leased =>
    refine ⟨_, _, hstep, .inl ⟨?_, .inl leased⟩⟩
    refine (failLoad_spec (fun m => ?_) t l _).calls
    exact hi'.layout.result m
  | duplicate settled found =>
    refine ⟨_, _, hstep, .inl ⟨?_, .inr found⟩⟩
    refine ((failLoad_spec (fun m => ?_) t l _).calls).trans
      (congrArg (erase · t) settled.calls)
    exact (settled.inv hi' hp hs).layout.result m
  | published settled published =>
    exact ⟨_, _, hstep, .inr (published.calls.trans (congrArg (insert · t _) settled.calls))⟩

theorem copying_ends {n} (hi : Inv p s) (hc : s.calls.find? t = some (.copying d l n)) :
    ∃ u v o, CarriesOn p s u ∧ Step p u (.finishCopy t, o) v ∧
      u.calls.find? t = some (.copying d l (p.descriptor d).bytes) ∧ v.calls = s.calls.erase t ∧
      ((∃ i, o = .leased i) ∨ ∃ w error, Touched p u l (w, some error)) := by
  obtain ⟨-, -, -, hle, -⟩ := hi.calls.ok t _ hc
  obtain ⟨u, hon, hcu, herase⟩ := copy_all ((p.descriptor d).bytes - n) hi hc (by omega)
  obtain ⟨v, o, hs, hcv, ho⟩ := finish_copy (hon.inv hi) hcu
  exact ⟨u, v, o, hon, hs, hcu, hcv.trans herase, ho⟩

/-! ## Driving every call -/

theorem drain_owner {c} (hi : Inv p s) (hc : s.calls.find? t = some c) (ho : c.owned? = some l) :
    ∃ u, CarriesOn p s u ∧ u.calls = s.calls.erase t := by
  cases c with
  | admission d => cases ho
  | coalesced d m => cases ho
  | reading d m n =>
    obtain ⟨-, -, -, hle, -⟩ := hi.calls.ok t _ hc
    obtain ⟨u, hon, hcu, herase, -⟩ :=
      read_all ((p.descriptor d).extents.length - n) hi hc (by omega)
    have hu := hon.inv hi
    obtain ⟨v, o, hs, ⟨hcv, -⟩ | hcv⟩ := finish_read hu hcu
    · exact ⟨v, hon.trans (CarriesOn.step hs rfl), hcv.trans herase⟩
    · have hv := hu.step hs
      obtain ⟨v', w, o', hon', hs', -, hcw, -⟩ :=
        copying_ends hv (hcv ▸ find?_insert_self _ _ _)
      have hcopied : CarriesOn p v w := hon'.trans (CarriesOn.step hs' rfl)
      refine ⟨w, hon.trans (.trans (CarriesOn.step hs rfl) hcopied), ?_⟩
      rw [hcw, hcv, erase_insert, herase]
  | readFailed d m n error =>
    have hs : Step p s (.finishRead t, .threw error)
        ((s.addBytesRead p d n).failLoad p t m error).1 := by
      simp only [Step, RamCache.step, State.resume, hc]; rfl
    refine ⟨_, CarriesOn.step hs rfl, (failLoad_spec (fun k => ?_) t m error).calls⟩
    exact hi.layout.result k
  | copying d m n =>
    obtain ⟨u, v, o, hon, hs, -, hcv, -⟩ := copying_ends hi hc
    exact ⟨v, hon.trans (CarriesOn.step hs rfl), hcv⟩

/-- With no load in flight every other call ends, perhaps after a load of its own. -/
theorem drain_call {c} (hi : Inv p s) (hidle : s.pending.isEmpty = true)
    (hc : s.calls.find? t = some c) : ∃ u, CarriesOn p s u ∧ u.calls = s.calls.erase t := by
  have hnopend : ∀ m, ¬ s.Pending p m := by
    intro m hm
    rw [State.Pending, isEmpty_iff.mp hidle] at hm; cases hm
  cases c with
  | admission d =>
    have he := hi.entering_of_admission hc
    have hcases := attempt_cases hi he
    have hs : RamCache.step p s (.wake t) = some (s.attempt p t d) := by
      simp only [RamCache.step, State.resume, hc]
    generalize s.attempt p t d = r at hs hcases
    cases hcases with
    | hit found ready hit => exact ⟨r.1, CarriesOn.step (o := r.2) hs rfl, hit.calls⟩
    | coalesced misses found => rw [isEmpty_iff.mp hidle] at found; cases found
    | noRoom misses quiet full => exact ⟨_, CarriesOn.step hs rfl, rfl⟩
    | waits misses busy => rw [hidle] at busy; cases busy
    | mismatch misses bad => exact ⟨_, CarriesOn.step hs rfl, rfl⟩
    | admitted misses admissible sources =>
      have hcall := find?_insert_self s.calls t (.reading d s.next 0)
      have hstep : Step p s (.wake t, .running) (s.reserve p t d _ _ _) := hs
      obtain ⟨u, hon, hcu⟩ := drain_owner (hi.step hstep) hcall rfl
      exact ⟨u, .trans (CarriesOn.step hs rfl) hon, hcu.trans (erase_insert _ _ _)⟩
  | coalesced d m =>
    obtain ⟨-, -, hphase⟩ := hi.calls.ok t _ hc
    have hdone : (s.loads m).state = .ready ∨ (s.loads m).state = .failed := by
      rcases hphase with hp | hready | hfailed
      · exact absurd hp (hnopend m)
      · exact .inl hready.1
      · exact .inr hfailed.1
    have hs : RamCache.step p s (.join t) = some (s.joinResult p t d m) := by
      simp only [RamCache.step, State.resume, hc, if_pos hdone]
    have hjoined := joinResult_cases hi t d fun h => (hi.joined_ready hc hdone h).1
    generalize s.joinResult p t d m = r at hs hjoined
    cases hjoined with
    | failed found =>
      exact ⟨_, CarriesOn.step hs rfl, (@dropLoad_spec (s.leave t) m (hi.layout.result m)).calls⟩
    | @hit u o none hit =>
      obtain ⟨hres, hready, hd⟩ := hi.joined_ready hc hdone none
      have hu := hit.inv hi hres hready hd
      exact ⟨_, CarriesOn.step hs rfl,
        (@dropLoad_spec (u.leave t) m (hu.layout.result m)).calls.trans
          (congrArg (erase · t) hit.calls)⟩
  | reading d m n => exact absurd (hi.calls.ok t _ hc).1 (hnopend m)
  | readFailed d m n error => exact absurd (hi.calls.ok t _ hc).1 (hnopend m)
  | copying d m n => exact absurd (hi.calls.ok t _ hc).1 (hnopend m)

theorem drain_some {c} (hi : Inv p s) (hc : s.calls.find? t = some c) :
    ∃ i c' u, s.calls.find? i = some c' ∧ CarriesOn p s u ∧ u.calls = s.calls.erase i := by
  cases hidle : s.pending.isEmpty with
  | true =>
    obtain ⟨u, hon, hcu⟩ := drain_call hi hidle hc
    exact ⟨t, c, u, hc, hon, hcu⟩
  | false =>
    obtain ⟨k, m, hm⟩ : ∃ k m, s.pending.find? k = some m := by
      by_contra hno
      push Not at hno
      rw [isEmpty_iff.mpr fun k => Option.eq_none_iff_forall_ne_some.mpr (hno k)] at hidle
      cases hidle
    obtain ⟨i, c', hci, ho⟩ := hi.calls.owned m (hi.layout.pending_of_find hm)
    obtain ⟨u, hon, hcu⟩ := drain_owner hi hci ho
    exact ⟨i, c', u, hci, hon, hcu⟩

theorem drain_all (n : Nat) : ∀ {s : State}, Inv p s → (s.calls.sumBy fun _ _ => 1) = n →
    ∃ u, CarriesOn p s u ∧ ∀ t, u.calls.find? t = none := by
  induction n with
  | zero =>
    intro s hi hn
    refine ⟨s, .refl s, fun t => ?_⟩
    cases hc : s.calls.find? t with
    | none => rfl
    | some c =>
      have hle := le_sumBy (fun _ _ => 1) hc
      omega
  | succ n ih =>
    intro s hi hn
    obtain ⟨t, c, hc⟩ : ∃ t c, s.calls.find? t = some c := by
      by_contra hno
      push Not at hno
      have hzero := sumBy_eq_zero (f := fun _ _ => 1) fun t c hc => absurd hc (hno t c)
      omega
    obtain ⟨i, c', u, hci, hon, hcu⟩ := drain_some hi hc
    have hsum := sumBy_erase (fun _ _ => 1) hci
    obtain ⟨v, hon', hnone⟩ := ih (hon.inv hi) (by rw [hcu]; omega)
    exact ⟨v, hon.trans hon', hnone⟩

end ExpertStreaming.RamCache
