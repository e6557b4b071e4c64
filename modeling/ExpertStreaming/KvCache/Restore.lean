import ExpertStreaming.KvCache.Saving

/-! # Going back to a checkpoint

Going back gives a sequence the recurrent rows, the tokens and the history it had when it was
saved last, and touches no other sequence. It rests on what the calls in between leave alone:
they invalidate a checkpoint by the range they are given, not by where tokens end up.
-/
namespace ExpertStreaming.KvCache
open Lib List
open Option (any_eq_true map_eq_some_iff some)

namespace Checkpointed

variable {env : SpecEnv} {b₀ b b' : Checkpointed}

/-! ## Going back -/

/-- What a snapshot counts on is as it was in `ref`. -/
structure Kept (ref b : Checkpointed) (i : Nat) (snapshot : Snapshot) : Prop where
  mode : b.mode = ref.mode
  tokens : Retains i snapshot.nPast ref.cache.cells b.cache.cells
  history : ref.mode = .gpuFallback →
    History.Retains i snapshot.nPast ref.state.history b.state.history

variable {ref : Checkpointed} {i : Nat} {snapshot : Snapshot} {seq nPast : Int}
  {refused again : Bool} {result : RestoreResult} {evs : List (Event Checkpointed (Op × Answer))}
  {label : Op × Answer}

theorem Kept.step
    (h : Kept ref b i snapshot) (hkeeps : Keeps b b' i snapshot) (hmode : b'.mode = b.mode) :
    Kept ref b' i snapshot :=
  ⟨hmode.trans h.mode, h.tokens.trans hkeeps.tokens,
    fun hgpu => (h.history hgpu).trans (hkeeps.history (h.mode.trans hgpu))⟩

/-- **What going back to a position leaves alone**: every other sequence, and the tokens of the
sequence itself before the position. -/
structure Frame (b b' : Checkpointed) (seq nPast : Int) : Prop where
  bank : b'.sequences = b.sequences
  mode : b'.mode = b.mode
  slots : b'.cache.qnextStateSlots = b.cache.qnextStateSlots
  others : ∀ q, q ≠ seq → ∀ bound, Retains q bound b.cache.cells b'.cache.cells
  base : Retains seq nPast b.cache.cells b'.cache.cells
  rows : ∀ slot < b.cache.qnextStateSlots, (slot : Int) ≠ seq →
    b'.cache.stateRows slot = b.cache.stateRows slot
  history : ∀ q, q ≠ seq → ∀ order,
    b'.state.history.lookup q order = b.state.history.lookup q order

theorem Frame.trans {b''} (h : Frame b b' seq nPast) (h' : Frame b' b'' seq nPast) :
    Frame b b'' seq nPast where
  bank := h'.bank.trans h.bank
  mode := h'.mode.trans h.mode
  slots := h'.slots.trans h.slots
  others q hq bound := (h.others q hq bound).trans (h'.others q hq bound)
  base := h.base.trans h'.base
  rows slot hslot hne :=
    (h'.rows slot (h.slots ▸ hslot) hne).trans (h.rows slot hslot hne)
  history q hq order := (h'.history q hq order).trans (h.history q hq order)

/-- **The sequence is as it was.** -/
structure Returns (ref b : Checkpointed) (seq : Int) : Prop where
  rows : b.cache.stateRows seq.toNat = ref.cache.stateRows seq.toNat
  tokens : ∀ t, b.cache.Stores seq t ↔ ref.cache.Stores seq t
  history : ∀ order, b.state.history.lookup seq order = ref.state.history.lookup seq order

/-- **No other sequence has noticed.** -/
structure Isolates (b b' : Checkpointed) (seq : Int) : Prop where
  rows : ∀ slot < b.cache.qnextStateSlots, (slot : Int) ≠ seq →
    b'.cache.stateRows slot = b.cache.stateRows slot
  tokens : ∀ q, q ≠ seq → ∀ t, b'.cache.Stores q t ↔ b.cache.Stores q t
  history : ∀ q, q ≠ seq → ∀ order,
    b'.state.history.lookup q order = b.state.history.lookup q order
  checkpoints : ∀ i : Nat, (i : Int) ≠ seq → b'.sequences[i]? = b.sequences[i]?

theorem Frame.isolates (h : Frame b b' seq nPast) :
    Isolates b b' seq :=
  ⟨h.rows, fun q hq => Cache.stores_of_retains (h.others q hq), h.history,
    fun i _ => by rw [h.bank]⟩

theorem Frame.tokens (h : Frame b b' i snapshot.nPast)
    (hcut : ∀ t, b'.cache.Stores i t → t.pos < snapshot.nPast) (hkept : Kept ref b i snapshot)
    (hsaved : SavedAt env ref i snapshot) (t : Token) :
    b'.cache.Stores i t ↔ ref.cache.Stores i t := by
  constructor
  · intro hstores
    have hlt := hcut t hstores
    exact (hkept.tokens.stores_iff hlt).mp ((h.base.stores_iff hlt).mp hstores)
  · intro hstores
    have hlt : t.pos < snapshot.nPast := hsaved.position ▸ hstores.lt_position
    exact (h.base.stores_iff hlt).mpr ((hkept.tokens.stores_iff hlt).mpr hstores)

theorem invalidate_behind {bank} (hi : bank[i]? = some snapshot) :
    checkpointInvalidate bank i snapshot.nPast (-1) = bank := by
  refine ext_getElem? fun j => ?_
  unfold checkpointInvalidate
  rw [getElem?_mapIdx]
  cases hj : bank[j]? with
  | none => rfl
  | some other =>
    rw [Option.map_some, if_neg]
    rintro ⟨hseq, -, hlt, -⟩
    obtain rfl : j = i := by omega
    obtain rfl := some.inj (hi.symm.trans hj)
    omega

theorem lookup_remove_tail (hkept : Kept ref b i snapshot) (hsaved : SavedAt env ref i snapshot)
    (hgpu : ref.mode = .gpuFallback)
    (hbound : ∀ entry ∈ (b.state.history.tokens i).values, entry.1 < posMax) (order : Int) :
    (b.state.history.remove i snapshot.nPast (-1)).lookup i order =
      ref.state.history.lookup i order := by
  have hnonneg : 0 ≤ snapshot.nPast := hsaved.position ▸ Cache.position_nonneg
  have hsame := (hkept.history hgpu).entries order
  have hold : (ref.state.history.lookup i order).filter
      (fun entry => decide (entry.1 < snapshot.nPast)) = ref.state.history.lookup i order := by
    cases hentry : ref.state.history.lookup i order with
    | none => rfl
    | some entry =>
      rw [Option.filter_some, if_pos (by simpa using hsaved.history hgpu order entry hentry)]
  rw [History.lookup_remove, if_pos (.inr rfl), ← hold, ← hsame]
  cases hentry : b.state.history.lookup i order with
  | none => rfl
  | some entry =>
    have hlt := hbound entry (History.mem_tokens hentry)
    have hwithin : History.Within snapshot.nPast (-1) entry.1 ↔ ¬ entry.1 < snapshot.nPast := by
      unfold History.Within lowest History.high
      unfold posMax at hlt
      unfold orderMax
      rw [if_neg (Int.not_lt.mpr hnonneg), if_pos (by decide)]
      omega
    rw [Option.bind_some, Option.filter_some]
    by_cases hbelow : entry.1 < snapshot.nPast
    · rw [if_neg (by rw [hwithin]; exact not_not.mpr hbelow), if_pos (by simpa using hbelow)]
    · rw [if_pos (hwithin.mpr hbelow), if_neg (by simpa using hbelow)]

theorem Careful.stores_lt (h : b.Careful (.restore seq nPast refused again)) (t : Token)
    (ht : b.cache.Stores seq t) : t.pos < posMax := by
  obtain ⟨cell, hcell, -, hmem, -, hpos⟩ := ht
  exact hpos ▸ h.2.1 cell (mem_of_getElem? hcell) hmem

/-! ### The parts of going back -/

theorem frame_write (hready : Ready b₀ b) (href : Ready b₀ ref) (i : Nat) (nPast : Int) :
    Frame b (b.withCache (b.cache.writeStateRows i (ref.cache.stateRows i))) i nPast where
  bank := rfl
  mode := rfl
  slots := (hready.write i _).kind.slots.trans hready.kind.slots.symm
  others _ _ _ := .refl _
  base := .refl _
  rows _ _ hne := Cache.stateRows_write_ne (hready.shapes.trans href.shapes.symm)
    fun heq => hne (by rw [heq])
  history _ _ _ := rfl

theorem stateRows_truncate (b : Checkpointed) (seq nPast : Int) (slot : Nat) :
    (b.truncate seq nPast).cache.stateRows slot = b.cache.stateRows slot := by
  show (b.cache.seqRm seq nPast (-1)).1.stateRows slot = _
  unfold Cache.stateRows
  rw [Cache.states_seqRm]

theorem frame_truncate (b : Checkpointed) (i : Nat) (nPast : Int) :
    Frame b (b.truncate i nPast) i nPast where
  bank := rfl
  mode := rfl
  slots := (Cache.framed_seqRm i nPast (-1)).slots
  others _ hq _ := Cache.retains_seqRm (.inl ⟨by omega, Ne.symm hq⟩)
  base := Cache.retains_seqRm (.inr (.inl (Int.le_refl _)))
  rows slot _ _ := stateRows_truncate b i nPast slot
  history _ _ _ := rfl

/-- **Going back with the GPU bank.** -/
theorem restoreGpu_outcome (hready : Ready b₀ b) (hi : b.sequences[i]? = some snapshot)
    (href : Ready b₀ ref) (hsaved : SavedAt env ref i snapshot) (hkept : Kept ref b i snapshot)
    (hmode : b.mode = .gpuFallback) (hcareful : b.Careful (.restore i snapshot.nPast refused again))
    (h : b.restoreGpu env i snapshot.nPast snapshot = some (b', result)) :
    (result = .failed ∧ b' = b) ∨
      (result = .baseReplayRequired ∧ Ready b₀ b' ∧ Frame b b' i snapshot.nPast ∧
        Returns ref b' i) := by
  have hgpu : ref.mode = .gpuFallback := hkept.mode.symm.trans hmode
  have hnonneg : 0 ≤ snapshot.nPast := hsaved.position ▸ Cache.position_nonneg
  unfold restoreGpu at h
  split at h
  · rw [map_eq_some_iff, hsaved.shadow hgpu, Int.toNat_natCast] at h
    obtain ⟨⟨removed, reply⟩, hcall, heq⟩ := h
    let w := b.withCache (b.cache.writeStateRows i (ref.cache.stateRows i))
    have hwritten : Ready b₀ w := hready.write i _
    have hframe : Frame b (w.truncate i snapshot.nPast) i snapshot.nPast :=
      (frame_write hready href i _).trans (frame_truncate w i _)
    unfold call at hcall
    obtain ⟨⟨q', reply'⟩, hstate, hpair⟩ := map_eq_some_iff.mp hcall
    cases hpair
    obtain ⟨rfl, hcache, hhistory⟩ := callState_seqRm hwritten.accounted.plain hstate
    have hcache : q'.cache = (w.truncate i snapshot.nPast).cache := hcache
    have hready' := hwritten.callState (a := .seqRm i snapshot.nPast (-1)) trivial hstate
      (checkpointInvalidate b.sequences i snapshot.nPast (-1))
    cases heq
    have hframe' : Frame b
        { w with state := q', sequences := checkpointInvalidate b.sequences i snapshot.nPast (-1) }
        i snapshot.nPast := by
      refine ⟨invalidate_behind hi, rfl, ?_, fun q hq bound => ?_, ?_, fun slot hslot hne => ?_,
        fun q hq order => ?_⟩
      · exact (congrArg Cache.qnextStateSlots hcache).trans hframe.slots
      · show Retains q bound b.cache.cells q'.cache.cells
        rw [hcache]
        exact hframe.others q hq bound
      · show Retains i snapshot.nPast b.cache.cells q'.cache.cells
        rw [hcache]
        exact hframe.base
      · show q'.cache.stateRows slot = _
        rw [hcache]
        exact hframe.rows slot hslot hne
      · show q'.history.lookup q order = _
        rw [hhistory]
        split
        · rw [History.lookup_remove, if_neg]
          · rfl
          · rintro (hneg | heq)
            · omega
            · exact hq heq
        · rfl
    have hcut : ∀ t, q'.cache.Stores i t → t.pos < snapshot.nPast := by
      intro t ht
      rw [hcache] at ht
      exact Cache.cut_seqRm hwritten.accounted.plain hnonneg hcareful.stores_lt ht
    refine .inr ⟨rfl, hready', hframe', ?_, hframe'.tokens hcut hkept hsaved, fun order => ?_⟩
    · show q'.cache.stateRows (i : Int).toNat = _
      rw [hcache, stateRows_truncate, Int.toNat_natCast]
      exact Cache.stateRows_write_self (hready.shapes.trans href.shapes.symm) i
    · show q'.history.lookup i order = _
      rw [hhistory]
      split
      · exact lookup_remove_tail hkept hsaved hgpu hcareful.2.2.1 order
      next ho =>
      -- without an order there is no history
      have ho : b.cache.ordered = false := Bool.eq_false_of_not_eq_true ho
      rw [href.plainHistory ((href.kind.ordered.trans hready.kind.ordered.symm).trans ho)]
      show b.state.history.lookup i order = _
      rw [hready.plainHistory ho]
  · cases h
    exact .inl ⟨rfl, rfl⟩

theorem frame_settle (hfresh : b₀.Fresh env) (hready : Ready b₀ b) (hunpending : b.cache.Unpending)
    {c ok} (h : settleKeys env b.cache = some (c, ok)) (seq nPast : Int) :
    Frame b (b.withCache c) seq nPast := by
  obtain ⟨hready', hretains, hrows⟩ := settleKeys_outcome hready h
  exact ⟨rfl, rfl, hready'.kind.slots.trans hready.kind.slots.symm, fun q _ => hretains q,
    hretains seq nPast, fun slot hslot _ => (hrows hfresh hunpending).2 slot hslot,
    fun _ _ _ => rfl⟩

/-- **A recorded state is read**, if the tokens are where they were when it was written. -/
theorem readPartial_recorded {data} (hfresh : b₀.Fresh env) (hready : Ready b₀ b)
    (href : Ready b₀ ref) (hdata : Recorded env ref i data)
    (hposition : b.cache.positionStrict = true →
      b.cache.checkpointPosition i = ref.cache.checkpointPosition i) :
    ∃ history, readPartial env b.state i data false =
        ({ b.state with
          cache := b.cache.writeStateRows i (ref.cache.stateRows i), history := history }, true) ∧
      (b.cache.ordered = false → history = b.state.history) ∧
      (∀ order, history.lookup i order = ref.state.history.lookup i order) ∧
      ∀ q : Int, q ≠ i → ∀ order, history.lookup q order = b.state.history.lookup q order := by
  have hordered : ref.cache.ordered = b.cache.ordered :=
    href.kind.ordered.trans hready.kind.ordered.symm
  have hplain : b.cache.ordered = false → ∀ order,
      b.state.history.lookup i order = ref.state.history.lookup i order := by
    intro ho order
    rw [hready.plainHistory ho, href.plainHistory (hordered.trans ho)]
  unfold readPartial
  rw [hdata.rows]
  dsimp only
  rw [Int.toNat_natCast]
  split
  next hstrict =>
    have hstrict' : ref.cache.positionStrict = true :=
      (href.kind.strict.trans hready.kind.strict.symm).trans hstrict
    have ho : b.cache.ordered = false :=
      hready.kind.ordered.trans (hfresh.strict (hready.kind.strict ▸ hstrict))
    rw [if_pos (by rw [hdata.statePos hstrict', ← hposition hstrict])]
    exact ⟨b.state.history, rfl, fun _ => rfl, hplain ho, fun _ _ _ => rfl⟩
  next hstrict =>
  rw [if_neg]
  · split
    next ho =>
      rw [if_neg (Nat.not_lt.mpr hdata.fits), hdata.history (hordered.trans ho)]
      obtain ⟨history, hhistory⟩ := History.restore_tokens href.valid b.state.history i
      have hlookup := History.lookup_restore hhistory
      rw [hhistory]
      refine ⟨history, rfl, fun hnot => absurd (hnot.symm.trans ho) Bool.false_ne_true,
        fun order => ?_, fun q hq order => ?_⟩
      · rw [hlookup, if_pos rfl]
        exact History.lookup_getD _ _ _
      · rw [hlookup, if_neg hq]
    next ho =>
      have ho := Bool.eq_false_of_not_eq_true ho
      exact ⟨b.state.history, rfl, fun _ => rfl, hplain ho, fun _ _ _ => rfl⟩
  · intro hany
    obtain ⟨cell, hcell, hbad⟩ := any_eq_true.mp hany
    have hcells := hdata.cells cell hcell
    simp only [decide_eq_true_eq] at hbad
    omega

/-- **What setting a recorded state does**, when memory is not refused. -/
theorem setData_recorded {data ok} (hfresh : b₀.Fresh env) (hready : Ready b₀ b)
    (href : Ready b₀ ref) (hdata : Recorded env ref i data) (hunpending : b.cache.Unpending)
    (hposition : b.cache.positionStrict = true →
      b.cache.checkpointPosition i = ref.cache.checkpointPosition i) (nPast : Int)
    (h : b.setData env i data false again = some (b', ok)) :
    ok = true ∧ Ready b₀ b' ∧ Frame b b' i nPast ∧
      (∀ bound, Retains i bound b.cache.cells b'.cache.cells) ∧
      b'.cache.stateRows i = ref.cache.stateRows i ∧
      ∀ order, b'.state.history.lookup i order = ref.state.history.lookup i order := by
  unfold setData at h
  obtain ⟨⟨c, settled⟩, hsettle, heq⟩ := map_eq_some_iff.mp h
  obtain ⟨hready', hretains, -⟩ := settleKeys_outcome hready hsettle
  have hsettled := frame_settle hfresh hready hunpending hsettle i nPast
  have hstrict : c.positionStrict = b.cache.positionStrict :=
    hready'.kind.strict.trans hready.kind.strict.symm
  obtain ⟨history, hread, hplain, hself, hothers⟩ := readPartial_recorded hfresh hready' href hdata
    fun hs => (Cache.position_congr (Cache.stores_of_retains (hretains i))).trans
      (hposition (hstrict.symm.trans hs))
  dsimp only at heq
  rw [hread] at heq
  cases heq
  have hwritten := hready'.write i (ref.cache.stateRows i)
  have hframe := hsettled.trans (frame_write hready' href i nPast)
  refine ⟨rfl, ⟨hwritten.accounted, hwritten.kind, hwritten.shapes, hwritten.defrag, ⟨?_⟩, ?_⟩,
    ⟨hframe.bank, hframe.mode, hframe.slots, hframe.others, hframe.base, hframe.rows, hothers⟩,
    hretains i, Cache.stateRows_write_self (hready'.shapes.trans href.shapes.symm) i, hself⟩
  · intro seq order entry hentry
    by_cases hseq : seq = i
    · subst hseq
      exact href.valid.entries ((hself order).symm.trans hentry)
    · exact hready.valid.entries ((hothers seq hseq order).symm.trans hentry)
  · intro ho
    have ho' : c.ordered = false := ho
    exact (hplain ho').trans (hready'.plainHistory ho')

/-- **Going back with the CPU bank.** -/
theorem restoreCpu_outcome (hfresh : b₀.Fresh env) (hready : Ready b₀ b) (href : Ready b₀ ref)
    (hsaved : SavedAt env ref i snapshot) (hkept : Kept ref b i snapshot) (hmode : b.mode = .cpu)
    (hcareful : b.Careful (.restore i snapshot.nPast refused again))
    (h : b.restoreCpu env i snapshot.nPast snapshot refused again = some (b', result)) :
    result = .baseReplayRequired ∧ Ready b₀ b' ∧ Frame b b' i snapshot.nPast ∧
      Returns ref b' i := by
  have hnonneg : 0 ≤ snapshot.nPast := hsaved.position ▸ Cache.position_nonneg
  obtain ⟨data, hcpu, hdata⟩ := hsaved.data (hkept.mode.symm.trans hmode)
  obtain rfl : refused = false := hcareful.2.2.2
  unfold restoreCpu at h
  rw [hcpu] at h
  dsimp only at h
  obtain ⟨⟨b₁, ok⟩, hset, heq⟩ := map_eq_some_iff.mp h
  split at hset
  next hstrict =>
    -- the tokens go first, and then are those that were saved
    have hcut := frame_truncate b i snapshot.nPast
    have htail : ∀ t, (b.truncate i snapshot.nPast).cache.Stores i t → t.pos < snapshot.nPast :=
      fun t ht => Cache.cut_seqRm hready.accounted.plain hnonneg hcareful.stores_lt ht
    have hready₁ := hready.truncate i snapshot.nPast
    have hunpending : (b.truncate i snapshot.nPast).cache.Unpending := by
      intro hstored
      have hs : (b.truncate i snapshot.nPast).cache.positionStrict = true :=
        (Cache.framed_seqRm i snapshot.nPast (-1)).strict.trans hstrict
      unfold Cache.hasQnextState at hstored
      simp [hs] at hstored
    obtain ⟨rfl, hready', hframe, hcells, hrows, hhistory⟩ := setData_recorded hfresh hready₁ href
      hdata hunpending
      (fun _ => Cache.position_congr (hcut.tokens htail hkept hsaved)) snapshot.nPast hset
    rw [if_pos rfl, if_pos hstrict] at heq
    cases heq
    have hcut' : ∀ t, b₁.cache.Stores i t → t.pos < snapshot.nPast :=
      fun t ht => htail t ((Cache.stores_of_retains hcells t).mp ht)
    exact ⟨rfl, hready', hcut.trans hframe, by rwa [Int.toNat_natCast],
      (hcut.trans hframe).tokens hcut' hkept hsaved, hhistory⟩
  next hstrict =>
  obtain ⟨rfl, hready₁, hframe, hcells, hrows, hhistory⟩ := setData_recorded hfresh hready href
    hdata hcareful.1 (fun hs => absurd hs hstrict) snapshot.nPast hset
  rw [if_pos rfl, if_neg hstrict] at heq
  cases heq
  have hback := hframe.trans (frame_truncate b₁ i snapshot.nPast)
  have hcut : ∀ t, (b₁.truncate i snapshot.nPast).cache.Stores i t → t.pos < snapshot.nPast :=
    fun t ht => Cache.cut_seqRm hready₁.accounted.plain hnonneg
      (fun t ht => hcareful.stores_lt t ((Cache.stores_of_retains hcells t).mp ht)) ht
  refine ⟨rfl, hready₁.truncate i _, hback, ?_, hback.tokens hcut hkept hsaved, hhistory⟩
  rw [Int.toNat_natCast, stateRows_truncate]
  exact hrows

/-- **What going back does**, for a snapshot of `ref` that has kept what it counts on. -/
theorem restore_outcome (hfresh : b₀.Fresh env) (hready : Ready b₀ b)
    (hcareful : b.Careful (.restore seq nPast refused again))
    (h : b.restore env seq nPast refused again = some (b', result)) :
    (result = .failed ∧ b' = b) ∨ ∃ (i : Nat) (snapshot : Snapshot), (i : Int) = seq ∧
      b.sequences[i]? = some snapshot ∧ snapshot.saved = true ∧ snapshot.nPast = nPast ∧
      ∀ ref, Ready b₀ ref → SavedAt env ref i snapshot → Kept ref b i snapshot →
        (result = .failed ∧ b' = b) ∨ (result = .baseReplayRequired ∧ Ready b₀ b' ∧
          Frame b b' seq nPast ∧ Returns ref b' seq) := by
  unfold restore at h
  dsimp only at h
  split at h
  · cases h
    exact .inl ⟨rfl, rfl⟩
  next hfound =>
  simp only [Bool.not_eq_true, Bool.not_eq_false', Bool.and_eq_true, decide_eq_true_eq,
    owns] at hfound
  obtain ⟨⟨⟨hnonneg, hlt⟩, hsaved⟩, hpast⟩ := hfound
  obtain ⟨i, rfl⟩ := Int.eq_ofNat_of_zero_le hnonneg
  obtain ⟨snapshot, hi⟩ : ∃ snapshot, b.sequences[i]? = some snapshot :=
    ⟨_, getElem?_eq_getElem (by exact_mod_cast hlt)⟩
  have hget : b.sequences.getD (i : Int).toNat {} = snapshot := by
    rw [Int.toNat_natCast, getD_eq_getElem?_getD, hi]
    rfl
  rw [hget] at hsaved hpast h
  subst hpast
  refine .inr ⟨i, snapshot, rfl, hi, hsaved, rfl, fun ref href hat hkept => ?_⟩
  split at h
  · cases h
    exact .inl ⟨rfl, rfl⟩
  next hmode => exact restoreGpu_outcome hready hi href hat hkept hmode hcareful h
  next hmode => exact .inr (restoreCpu_outcome hfresh hready href hat hkept hmode hcareful h)

/-! ## Runs -/

def saves (seq : Int) : Op × Answer := (.save seq, .saved true)

/-- **The last save of a sequence in a run**: one that succeeded, and none after it did. -/
structure LastSave (evs : List (Event Checkpointed (Op × Answer))) (seq : Int)
    (ref : Checkpointed) : Prop where
  split : ∃ pre before post, evs = pre ++ ⟨before, saves seq, ref⟩ :: post ∧
    ∀ ev ∈ post, ev.label ≠ saves seq

theorem LastSave.new (evs : List (Event Checkpointed (Op × Answer))) (seq : Int) :
    LastSave (evs ++ [⟨b, saves seq, b'⟩]) seq b' :=
  ⟨evs, b, [], rfl, by simp⟩

theorem LastSave.later (h : LastSave evs seq ref) (hlabel : label ≠ saves seq)
    : LastSave (evs ++ [⟨b, label, b'⟩]) seq ref := by
  obtain ⟨pre, before, post, rfl, hpost⟩ := h.split
  refine ⟨pre, before, post ++ [⟨b, label, b'⟩], by simp, fun ev hev => ?_⟩
  rcases mem_append.mp hev with hev | hev
  · exact hpost ev hev
  · rw [mem_singleton.mp hev]
    exact hlabel

/-- **The invariant of a run**: every snapshot is of its sequence's last save, and what it counts
on is as it was then. -/
structure Backed (env : SpecEnv) (b₀ : Checkpointed)
    (evs : List (Event Checkpointed (Op × Answer))) (b : Checkpointed) : Prop where
  ready : Ready b₀ b
  last : ∀ (i : Nat) (snapshot : Snapshot), b.sequences[i]? = some snapshot →
    snapshot.saved = true → ∃ ref, LastSave evs i ref ∧ Ready b₀ ref ∧
      SavedAt env ref i snapshot ∧ Kept ref b i snapshot

theorem Backed.kept (h : Backed env b₀ evs b) (hkeeps : Keeps b b' i snapshot)
    (hsaved : snapshot.saved = true) (hmode : b'.mode = b.mode) (hlabel : label ≠ saves i) :
    ∃ ref, LastSave (evs ++ [⟨b, label, b'⟩]) i ref ∧ Ready b₀ ref ∧
      SavedAt env ref i snapshot ∧ Kept ref b' i snapshot := by
  obtain ⟨ref, hlast, href, hat, hkept⟩ := h.last i snapshot hkeeps.kept hsaved
  exact ⟨ref, hlast.later hlabel, href, hat, hkept.step hkeeps hmode⟩

theorem backed_fresh (hfresh : b₀.Fresh env) : Backed env b₀ [] b₀ := by
  refine ⟨⟨(hfresh.cache.sound hfresh.plain).toAccounted, .refl _, rfl, hfresh.cache.doDefrag, ?_,
    fun _ => hfresh.history⟩, fun i snapshot hi hsaved => ?_⟩
  · rw [hfresh.history]
    exact History.valid_empty
  · rw [hfresh.bank] at hi
    rw [eq_of_mem_replicate (mem_of_getElem? hi)] at hsaved
    cases hsaved

theorem Backed.reaches (h : Backed env b₀ evs b) (hi : b.sequences[i]? = some snapshot)
    (hsaved : snapshot.saved = true) : b.cache.Reaches i snapshot.nPast := by
  obtain ⟨ref, -, -, hat, hkept⟩ := h.last i snapshot hi hsaved
  have hreaches : ref.cache.Reaches i snapshot.nPast := hat.position ▸ Cache.reaches_position
  exact hreaches.of_retains hkept.tokens

theorem Frame.keeps {j other} (h : Frame b b' i snapshot.nPast)
    (hi : b.sequences[i]? = some snapshot) (hkept : Kept ref b i snapshot)
    (hreturns : Returns ref b' i) (hj : b'.sequences[j]? = some other) : Keeps b b' j other := by
  have hold : b.sequences[j]? = some other := h.bank ▸ hj
  by_cases hne : j = i
  · subst hne
    obtain rfl := some.inj (hi.symm.trans hold)
    refine ⟨hi, h.base, fun hgpu => ⟨fun order => ?_⟩⟩
    rw [hreturns.history order]
    exact ((hkept.history (hkept.mode.symm.trans hgpu)).entries order).symm
  · have hne : (j : Int) ≠ i := by exact_mod_cast hne
    exact ⟨hold, h.others j hne _, fun _ => ⟨fun order => by rw [h.history j hne order]⟩⟩

theorem Backed.delete (h : Backed env b₀ evs b) (hlabel : ∀ i : Nat, label ≠ saves i)
    (hstate : b'.state = b.state) (hmode : b'.mode = b.mode)
    (hbank : b'.sequences = checkpointDelete b.sequences seq) :
    Backed env b₀ (evs ++ [⟨b, label, b'⟩]) b' := by
  refine ⟨?_, fun i snapshot hi hsaved => ?_⟩
  · obtain ⟨state, mode, bank⟩ := b'
    cases hstate
    exact ⟨h.ready.accounted, h.ready.kind, h.ready.shapes, h.ready.defrag, h.ready.valid,
      h.ready.plainHistory⟩
  · rw [hbank] at hi
    obtain ⟨hold, -⟩ := saved_of_mapIdx hi hsaved
    exact h.kept (.same hold hstate) hsaved hmode (hlabel i)

/-- **Every careful step keeps the invariant.** -/
theorem Backed.step (hfresh : b₀.Fresh env) (h : Backed env b₀ evs b) (hstep : Step env b label b')
    (hcareful : b.Careful label.1) : Backed env b₀ (evs ++ [⟨b, label, b'⟩]) b' := by
  obtain ⟨op, answer⟩ := label
  cases op with
  | call a =>
    have hstep : (b.call env a).map (fun r => (r.1, Answer.replied r.2)) = some (b', answer) :=
      hstep
    obtain ⟨⟨b₁, reply⟩, hcall, heq⟩ := map_eq_some_iff.mp hstep
    cases heq
    obtain ⟨hready, hmode⟩ : Ready b₀ b₁ ∧ b₁.mode = b.mode := by
      unfold call at hcall
      obtain ⟨⟨q', reply'⟩, hstate, hpair⟩ := map_eq_some_iff.mp hcall
      cases hpair
      exact ⟨h.ready.callState hcareful hstate _, rfl⟩
    refine ⟨hready, fun i snapshot hi hsaved => ?_⟩
    exact h.kept (keeps_call h.ready hcareful h.reaches hcall hi hsaved) hsaved hmode nofun
  | save seq =>
    have hstep : (b.save env seq).map (fun r => (r.1, Answer.saved r.2)) = some (b', answer) :=
      hstep
    obtain ⟨⟨b₁, ok⟩, hsave, heq⟩ := map_eq_some_iff.mp hstep
    cases heq
    obtain ⟨hready, hmode, hbank⟩ := save_outcome hfresh h.ready hcareful hsave
    refine ⟨hready, fun i snapshot hi hsaved => ?_⟩
    have hnow := hbank i snapshot hi hsaved
    split at hnow
    next hnew =>
      obtain ⟨rfl, rfl⟩ := hnew
      exact ⟨b₁, .new evs i, hready, hnow, rfl, .refl _, fun _ => .refl _⟩
    next hold =>
    refine h.kept hnow hsaved hmode fun hlabel => hold ?_
    cases hlabel
    exact ⟨rfl, rfl⟩
  | restore seq nPast refused again =>
    have hstep : (b.restore env seq nPast refused again).map
        (fun r => (r.1, Answer.restored r.2)) = some (b', answer) := hstep
    obtain ⟨⟨b₁, result⟩, hrestore, heq⟩ := map_eq_some_iff.mp hstep
    cases heq
    -- what a failure leaves is what was there
    have hsame : b₁ = b → Backed env b₀
        (evs ++ [⟨b, (.restore seq nPast refused again, .restored result), b₁⟩]) b₁ := by
      rintro rfl
      exact ⟨h.ready, fun i snapshot hi hsaved => h.kept (.same hi rfl) hsaved rfl nofun⟩
    rcases restore_outcome hfresh h.ready hcareful hrestore with
      ⟨-, hfailed⟩ | ⟨i, snapshot, rfl, hi, hsaved, rfl, hback⟩
    · exact hsame hfailed
    · obtain ⟨ref, -, href, hat, hkept⟩ := h.last i snapshot hi hsaved
      rcases hback ref href hat hkept with ⟨-, hfailed⟩ | ⟨-, hready, hframe, hreturns⟩
      · exact hsame hfailed
      · exact ⟨hready, fun j other hj hother =>
          h.kept (hframe.keeps hi hkept hreturns hj) hother hframe.mode nofun⟩
  | discardSeq seq =>
    have hstep : some (b.discardSeq seq, Answer.discarded) = some (b', answer) := hstep
    cases hstep
    unfold discardSeq
    split
    · exact ⟨h.ready, fun i snapshot hi hsaved => h.kept (.same hi rfl) hsaved rfl nofun⟩
    · exact h.delete nofun rfl rfl rfl
  | discard =>
    have hstep : some (b.discard, Answer.discarded) = some (b', answer) := hstep
    cases hstep
    refine ⟨⟨h.ready.accounted, h.ready.kind, h.ready.shapes, h.ready.defrag, h.ready.valid,
      h.ready.plainHistory⟩, fun i snapshot hi hsaved => ?_⟩
    -- nothing is left of the bank
    obtain ⟨-, hnot⟩ := saved_of_mapIdx hi hsaved
    exact absurd (.inl (by decide)) hnot

/-- **The invariant along a run.** -/
theorem Fresh.backed_run (hfresh : b₀.Fresh env)
    (hrun : Trace (Step env) b₀ evs b) (hok : ∀ ev ∈ evs, ev.before.Careful ev.label.1) :
    Backed env b₀ evs b :=
  hrun.history_of (H := Backed env b₀) (C := fun ev => ev.before.Careful ev.label.1)
    (fun _ _ _ _ h hstep hcareful => h.step hfresh hstep hcareful) hok (backed_fresh hfresh)

/-- **Going back gives a sequence what its last save found**, made at the position asked for, and
no other sequence notices; a failure changes nothing. -/
theorem restore_gives_back_the_last_save {evs : List (Event Checkpointed (Op × Answer))}
    {seq nPast : Int} {refused again : Bool} {result : RestoreResult} (hfresh : b₀.Fresh env)
    (hrun : Trace (Step env) b₀ evs b) (hok : ∀ ev ∈ evs, ev.before.Careful ev.label.1)
    (hcareful : b.Careful (.restore seq nPast refused again))
    (hstep : Step env b (.restore seq nPast refused again, .restored result) b') :
    (result = .failed → b' = b) ∧
      (result = .baseReplayRequired → Isolates b b' seq ∧
        ∃ ref, LastSave evs seq ref ∧ ref.cache.checkpointPosition seq = nPast ∧
          Returns ref b' seq) := by
  have hbacked := hfresh.backed_run hrun hok
  have hrestore : b.restore env seq nPast refused again = some (b', result) := by
    obtain ⟨⟨b₁, result'⟩, hrestore, heq⟩ := map_eq_some_iff.mp hstep
    cases heq
    exact hrestore
  have hfailed : result = .failed → b' = b → (result = .failed → b' = b) ∧
      (result = .baseReplayRequired → Isolates b b' seq ∧ ∃ ref, LastSave evs seq ref ∧
        ref.cache.checkpointPosition seq = nPast ∧ Returns ref b' seq) := by
    rintro rfl hsame
    exact ⟨fun _ => hsame, nofun⟩
  rcases restore_outcome hfresh hbacked.ready hcareful hrestore with
    ⟨hresult, hsame⟩ | ⟨i, snapshot, rfl, hi, hsaved, rfl, hback⟩
  · exact hfailed hresult hsame
  obtain ⟨ref, hlast, href, hat, hkept⟩ := hbacked.last i snapshot hi hsaved
  rcases hback ref href hat hkept with ⟨hresult, hsame⟩ | ⟨rfl, -, hframe, hreturns⟩
  · exact hfailed hresult hsame
  · exact ⟨nofun, fun _ => ⟨hframe.isolates, ref, hlast, hat.position.symm, hreturns⟩⟩

open Cache (eightRows threeSequences text)
open Qwen (eightKeys)

/-- Three sequences whose recurrent rows change with every batch. -/
def stirred : SpecEnv where
  toEnv := { threeSequences with
    compute := fun _ _ => .ok ⟨fun _ t => t.bytes, fun _ t => t.bytes,
      fun _ t a => t.bytes a + 1, fun _ t => t.bytes⟩ }
  nCtxMax := 16

def eightSaved : Checkpointed where
  state := eightKeys
  mode := .gpuFallback
  sequences := List.replicate 3 {}

theorem eightSaved_fresh : eightSaved.Fresh stirred where
  cache := Qwen.eightKeys_fresh.cache
  plain := rfl
  history := rfl
  bank := rfl
  fits := by decide
  layers := by simp [eightSaved, eightKeys, eightRows, cache, Cache.qnextStateSlots]
  strict := nofun
  size := by decide
  padded := by decide

/-- Sequence 0 is saved, goes on, and comes back; its recurrent row had changed. -/
theorem restore_gives_back_the_last_save_after_a_decode :
    ∃ evs b b', Trace (Step stirred) eightSaved evs b ∧
      Step stirred b (.restore 0 2 false false, .restored .baseReplayRequired) b' ∧
      b.cache.stateRows 0 ≠ b'.cache.stateRows 0 ∧ Isolates b b' 0 ∧
      ∃ ref, LastSave evs 0 ref ∧ ref.cache.checkpointPosition 0 = 2 ∧ Returns ref b' 0 := by
  have hruns : (execute (perform stirred) eightSaved
      [.call (.decode [text 0 0, text 1 0, text 0 1] none), .save 0,
        .call (.decode [text 2 0, text 1 1] none), .save 1]).any (fun r =>
        r.1.all (fun ev => decide (ev.before.Careful ev.label.1)) &&
        decide (r.2.Careful (.restore 0 2 false false)) &&
        (r.2.perform stirred (.restore 0 2 false false)).any fun r' =>
          decide (r'.2 = .restored .baseReplayRequired) &&
          decide (r.2.cache.stateRows 0 ≠ r'.1.cache.stateRows 0)) = true := by
    decide +kernel
  obtain ⟨⟨evs, b⟩, hrun, hok⟩ := (any_eq_true _ _).mp hruns
  simp only [Bool.and_eq_true, decide_eq_true_eq, all_eq_true] at hok
  obtain ⟨⟨hvalid, hcareful⟩, hcall⟩ := hok
  obtain ⟨⟨b', answer⟩, hstep, hdone⟩ := (any_eq_true _ _).mp hcall
  simp only [Bool.and_eq_true, decide_eq_true_eq] at hdone
  obtain ⟨rfl, hchanged⟩ := hdone
  exact ⟨evs, b, b', execute_trace hrun, hstep, hchanged,
    (restore_gives_back_the_last_save eightSaved_fresh (execute_trace hrun) hvalid hcareful
      hstep).2 rfl⟩

/-- Tokens behind a checkpoint are moved into the part it counts on, and going back leaves them
there. -/
theorem moved_tokens_survive_going_back :
    ∃ evs ref b b', Trace (Step stirred) eightSaved evs b ∧ LastSave evs 0 ref ∧
      ref.cache.checkpointPosition 0 = 2 ∧
      Step stirred b (.restore 0 2 false false, .restored .baseReplayRequired) b' ∧
      ¬ ref.cache.Stores 0 ⟨2, 0, 2⟩ ∧ b'.cache.Stores 0 ⟨2, 0, 2⟩ := by
  have hruns : (execute (perform stirred) eightSaved
      [.call (.decode [text 0 0, text 1 0] none)]).any (fun r =>
        (r.2.perform stirred (.save 0)).any fun saved =>
          decide (saved.2 = .saved true) &&
          decide (saved.1.cache.checkpointPosition 0 = 2) &&
          decide (¬ saved.1.cache.Stores 0 ⟨2, 0, 2⟩) &&
          (execute (perform stirred) saved.1
            [.call (.decode [text 2 0, text 3 0] none),
              .call (.seqAdd 0 2 (-1) (-2) none)]).any fun r' =>
            r'.1.all (fun ev => decide (ev.label ≠ saves 0)) &&
            (r'.2.perform stirred (.restore 0 2 false false)).any fun back =>
              decide (back.2 = .restored .baseReplayRequired) &&
              decide (back.1.cache.Stores 0 ⟨2, 0, 2⟩)) = true := by
    decide +kernel
  obtain ⟨⟨pre, b₁⟩, hpre, hsave⟩ := (any_eq_true _ _).mp hruns
  obtain ⟨⟨ref, answer⟩, hsaved, hafter⟩ := (any_eq_true _ _).mp hsave
  simp only [Bool.and_eq_true, decide_eq_true_eq] at hafter
  obtain ⟨⟨⟨rfl, hposition⟩, hbefore⟩, hrest⟩ := hafter
  obtain ⟨⟨post, b⟩, hpost, hback⟩ := (any_eq_true _ _).mp hrest
  simp only [Bool.and_eq_true, decide_eq_true_eq, all_eq_true] at hback
  obtain ⟨hnone, hrestore⟩ := hback
  obtain ⟨⟨b', answer'⟩, hstep, hdone⟩ := (any_eq_true _ _).mp hrestore
  simp only [Bool.and_eq_true, decide_eq_true_eq] at hdone
  obtain ⟨rfl, hstored⟩ := hdone
  have hstepped : Step stirred b₁ (saves 0) ref := hsaved
  exact ⟨pre ++ ⟨b₁, saves 0, ref⟩ :: post, ref, b, b',
    (execute_trace hpre).append (.cons hstepped (execute_trace hpost)),
    ⟨pre, b₁, post, rfl, hnone⟩, hposition, hstep, hbefore, hstored⟩

end Checkpointed

end ExpertStreaming.KvCache
