import ExpertStreaming.KvCache.Bank
import ExpertStreaming.KvCache.Pending

/-! # Saving a checkpoint

A snapshot is of the context as it is after the save: its position, the recurrent rows of the
sequence and, in the CPU bank, the state that `llama_state_seq_set_data` will read. The rotation of
keys and the copies of recurrent rows that a save carries out first leave every token where it is.
-/
namespace ExpertStreaming.KvCache
open Lib

namespace Cache

variable {c c' : Cache}

def Unpending (c : Cache) : Prop := c.hasQnextState = true → c.Settled

instance (c : Cache) : Decidable c.Unpending := inferInstanceAs (Decidable (_ → _))

/-! ## Updates -/

theorem stateRows_update {g status} (hplain : c.recurrent = false)
    (hfits : c.qnextStateSlots ≤ c.size) (hlayers : ∀ t, some t ∈ c.s → t.ne1 = c.qnextStateSlots)
    (hunpending : c.Unpending) (hdefrag : c.doDefrag = false) (h : c.update g = some (c', status)) :
    c'.Unpending ∧ ∀ slot < c.qnextStateSlots, c'.stateRows slot = c.stateRows slot := by
  rcases update_cases h with ⟨rfl, -⟩ | ⟨shifted, copied, hshift, hkind, hcopied, hsettled, -⟩
  · exact ⟨hunpending, fun _ _ => rfl⟩
  -- rotating the keys touches neither the rows nor the sources
  obtain ⟨hstates, -, hsources⟩ := sameStates_shifted hshift
  obtain rfl := settleDefrag_still ((framed_settleCopies hcopied).defrag (hkind.defrag hdefrag))
    hsettled
  have hidentity : shifted.hasQnextState = true → ∀ i < c.size, shifted.copySources i = i := by
    intro hstored i hi
    rw [copySources_eq, hsources]
    exact hunpending (hkind.hasQnextState.symm.trans hstored) i hi
  unfold settleCopies at hcopied
  rw [hkind.recurrent.trans hplain, Bool.false_or] at hcopied
  split at hcopied
  next hpending =>
    rw [Bool.and_eq_true] at hpending
    unfold applyCopies at hcopied
    split at hcopied
    · cases hcopied
      refine ⟨fun _ i hi => ?_, fun slot hslot => ?_⟩
      · have hi : i < shifted.cells.length := by simpa [size] using hi
        simp [sources, List.getD_eq_getElem?_getD, hi]
      · unfold stateRows
        rw [List.map_map, hstates]
        refine List.map_congr_left fun tensor htensor => ?_
        cases tensor with
        | none => rfl
        | some t =>
          have hrow := row_gatherRows t shifted.copySources
            (hlayers t htensor ▸ hslot : slot < t.ne1)
          rw [hidentity hpending.1 slot (Nat.lt_of_lt_of_le hslot hfits)] at hrow
          exact congrArg some hrow
    · cases hcopied
  · cases hcopied
    refine ⟨fun hstored i hi => ?_, fun slot _ => ?_⟩
    · rw [hsources]
      have hi : i < c.cells.length := by
        rw [← hkind.size]
        exact hi
      exact hunpending (hkind.hasQnextState.symm.trans hstored) i hi
    · unfold stateRows
      rw [hstates]

theorem stores_of_retains {seq} (h : ∀ bound, Retains seq bound c.cells c'.cells) (t : Token) :
    c'.Stores seq t ↔ c.Stores seq t :=
  (h (t.pos + 1)).stores_iff (by omega)

/-! ## Removing the tail -/

theorem cut_seqRm {seq n} (hplain : c.recurrent = false) (hn : 0 ≤ n)
    (hbound : ∀ t, c.Stores seq t → t.pos < posMax) {t} (h : (c.seqRm seq n (-1)).1.Stores seq t) :
    t.pos < n := by
  unfold seqRm at h
  rw [hplain, Bool.false_and, if_neg Bool.false_ne_true] at h
  obtain ⟨cell, hcell, hpos, hmem, horder, heq⟩ := h
  have hcell : (c.sweep (c.rmRow seq n (-1))).cells[t.row]? = some cell := hcell
  rw [getElem?_sweep, Option.map_eq_some_iff] at hcell
  obtain ⟨old, hold, rfl⟩ := hcell
  by_contra hge
  unfold rmRow at hpos hmem heq
  split at hmem
  next hrow =>
    split at hmem
    · exact absurd hmem (Finset.notMem_empty _)
    · have hgone : seq ∉ old.without seq := by
        unfold Cell.without
        split
        · exact Finset.notMem_empty _
        · exact Finset.notMem_erase _ _
      exact hgone hmem
  next hrow =>
  rw [if_neg hrow] at hpos heq
  dsimp only at hpos heq hmem
  have hlt := hbound ⟨old.order, old.pos, t.row⟩ ⟨old, hold, hpos, hmem, rfl, rfl⟩
  dsimp only at hlt
  refine hrow ⟨⟨?_, ?_⟩, .inr hmem⟩
  · unfold lowest
    rw [if_neg (Int.not_lt.mpr hn), heq]
    exact Int.not_lt.mp hge
  · unfold highest
    rw [if_pos (by decide)]
    exact hlt

theorem states_seqRm (seq p0 p1 : Int) : (c.seqRm seq p0 p1).1.s = c.s := by
  unfold seqRm
  split <;> rfl

end Cache

namespace Checkpointed

variable {env : SpecEnv} {b₀ b b' : Checkpointed}

/-- **When saving and going back do what they are for**: no recurrent copy is pending, the history
ends with the cells, no token is at the largest position, and memory is not refused. -/
def Careful (b : Checkpointed) : Op → Prop
  | .call a => b.CarefulCall a
  | .save seq => (b.mode = .cpu → b.cache.Unpending) ∧ (b.mode = .gpuFallback →
      ∀ entry ∈ (b.state.history.tokens seq).values, entry.1 < b.cache.checkpointPosition seq)
  | .restore seq _ refused _ => b.cache.Unpending ∧
      (∀ cell ∈ b.cache.cells, seq ∈ cell.seqId → cell.pos < posMax) ∧
      (∀ entry ∈ (b.state.history.tokens seq).values, entry.1 < posMax) ∧ refused = false
  | .discardSeq _ | .discard => True

instance (b : Checkpointed) (op : Op) : Decidable (b.Careful op) :=
  match op with
  | .call a => inferInstanceAs (Decidable (b.CarefulCall a))
  | .save seq => inferInstanceAs (Decidable ((b.mode = .cpu → b.cache.Unpending) ∧
      (b.mode = .gpuFallback → ∀ entry ∈ (b.state.history.tokens seq).values,
        entry.1 < b.cache.checkpointPosition seq)))
  | .restore seq _ refused _ => inferInstanceAs (Decidable (b.cache.Unpending ∧
      (∀ cell ∈ b.cache.cells, seq ∈ cell.seqId → cell.pos < posMax) ∧
      (∀ entry ∈ (b.state.history.tokens seq).values, entry.1 < posMax) ∧ refused = false))
  | .discardSeq _ | .discard => .isTrue trivial

/-! ## The invariant -/

variable {c : Cache} {seq : Int} {snapshot : Snapshot}

theorem Ready.withCache (h : Ready b₀ b) (haccounted : c.Accounted)
    (hframe : Framed b.cache c) : Ready b₀ (b.withCache c) :=
  ⟨haccounted, h.kind.trans hframe.toSameKind, hframe.shapes.trans h.shapes,
    hframe.defrag h.defrag, h.valid, fun ho => h.plainHistory (hframe.ordered.symm.trans ho)⟩

theorem Ready.update {g status} (h : Ready b₀ b) (hupdate : b.cache.update g = some (c, status)) :
    Ready b₀ (b.withCache c) :=
  h.withCache ((Cache.preserves_update hupdate).accounted h.accounted)
    (Cache.framed_update hupdate)

theorem Ready.truncate (h : Ready b₀ b) (seq nPast : Int) : Ready b₀ (b.truncate seq nPast) :=
  h.withCache ((Cache.preserves_seqRm seq nPast (-1)).accounted h.accounted)
    (Cache.framed_seqRm seq nPast (-1))

theorem Ready.write (h : Ready b₀ b) (slot : Nat) (rows : List (Option (List UInt8))) :
    Ready b₀ (b.withCache (b.cache.writeStateRows slot rows)) :=
  h.withCache ⟨h.accounted.plain, h.accounted.small, h.accounted.counted⟩
    (.of_shapes ⟨rfl, rfl, rfl, rfl⟩ rfl (Cache.stateShapes_mapBytes rfl) id)

theorem Ready.fits (h : Ready b₀ b) (hfresh : b₀.Fresh env) :
    b.cache.qnextStateSlots ≤ b.cache.size := by
  show _ ≤ b.cache.cells.length
  rw [h.kind.slots, h.kind.size]
  exact hfresh.fits

theorem Ready.layers (h : Ready b₀ b) (hfresh : b₀.Fresh env) (t : Tensor)
    (ht : some t ∈ b.cache.s) : t.ne1 = b.cache.qnextStateSlots := by
  have hmem : some (t.type, t.ne0, t.ne1) ∈ b.cache.stateShapes :=
    List.mem_map.mpr ⟨some t, ht, rfl⟩
  rw [h.shapes] at hmem
  obtain ⟨tensor, htensor, hsame⟩ := List.mem_map.mp hmem
  obtain ⟨t₀, rfl, hshape⟩ := Option.map_eq_some_iff.mp hsame
  have hne1 : t₀.ne1 = t.ne1 := (Prod.mk.inj (Prod.mk.inj hshape).2).2
  rw [← hne1, hfresh.layers t₀ htensor, h.kind.slots]

theorem settleKeys_outcome {ok} (h : Ready b₀ b) (hsettle : settleKeys env b.cache = some (c, ok)) :
    Ready b₀ (b.withCache c) ∧ (∀ seq bound, Retains seq bound b.cache.cells c.cells) ∧
      (b₀.Fresh env → b.cache.Unpending → c.Unpending ∧
        ∀ slot < b.cache.qnextStateSlots, c.stateRows slot = b.cache.stateRows slot) := by
  unfold settleKeys at hsettle
  split at hsettle
  · obtain ⟨⟨c', status⟩, hupdate, heq⟩ := Option.map_eq_some_iff.mp hsettle
    cases heq
    refine ⟨h.update hupdate, fun seq bound => Cache.retains_update h.defrag hupdate,
      fun hfresh hunpending => ?_⟩
    exact Cache.stateRows_update h.accounted.plain (h.fits hfresh) (h.layers hfresh) hunpending
      h.defrag hupdate
  · cases hsettle
    exact ⟨{ h with },
      fun _ _ => .refl _, fun _ hunpending => ⟨hunpending, fun _ _ => rfl⟩⟩

/-! ## Saving -/

/-- What the state written for a sequence says about it. -/
structure Recorded (env : SpecEnv) (b : Checkpointed) (i : Nat) (data : PartialState) : Prop where
  rows : data.rows = some (b.cache.stateRows i)
  statePos : b.cache.positionStrict = true → data.statePos = b.cache.checkpointPosition i - 1
  cells : ∀ cell ∈ data.cells, 0 ≤ cell.1 ∧ 0 ≤ cell.2
  history : b.cache.ordered = true → data.history = b.state.history.tokens i
  fits : data.history.size ≤ env.nCtxMax

/-- **A snapshot of the context as it is.** -/
structure SavedAt (env : SpecEnv) (b : Checkpointed) (i : Nat) (snapshot : Snapshot) : Prop where
  position : snapshot.nPast = b.cache.checkpointPosition i
  shadow : b.mode = .gpuFallback → snapshot.shadow = b.cache.stateRows i
  data : b.mode = .cpu → ∃ data, snapshot.cpuData = some data ∧ Recorded env b i data
  history : b.mode = .gpuFallback → ∀ order entry, b.state.history.lookup i order = some entry →
    entry.1 < snapshot.nPast

theorem history_fits {data} (hrows : data.rows.isSome = true)
    (hlimit : partialBytes c data ≤ cpuLimit env c) (hsize : c.size ≤ env.nCtxMax)
    (hpadded : 16 ≤ env.nCtxMax) : data.history.size ≤ env.nCtxMax := by
  unfold partialBytes cpuLimit at hlimit
  rw [if_pos hrows] at hlimit
  omega

theorem recorded_partialState (hfresh : b₀.Fresh env) (hready : Ready b₀ b)
    (hunpending : b.cache.Unpending) {i : Nat} (hrange : b.cache.qnextSeqIdInRange i = true)
    (hlimit : partialBytes b.cache (partialState b.state i) ≤ cpuLimit env b.cache) :
    Recorded env b i (partialState b.state i) := by
  have hslot : i < b.cache.qnextStateSlots := by
    unfold Cache.qnextSeqIdInRange at hrange
    simp only [Bool.and_eq_true, decide_eq_true_eq] at hrange
    omega
  cases hstrict : b.cache.positionStrict with
  | true =>
    have ho : b.cache.ordered = false :=
      hready.kind.ordered.trans (hfresh.strict (hready.kind.strict ▸ hstrict))
    unfold partialState
    dsimp only
    rw [if_pos hstrict]
    refine ⟨rfl, fun _ => rfl, nofun, fun hordered => ?_, Nat.zero_le _⟩
    exact absurd (ho.symm.trans hordered) Bool.false_ne_true
  | false =>
    have hsize : i < b.cache.size := Nat.lt_of_lt_of_le hslot (hready.fits hfresh)
    have hstored : b.cache.hasQnextState = true := by
      unfold Cache.hasQnextState
      simp [hstrict, Nat.lt_of_le_of_lt (Nat.zero_le _) hslot]
    have hsrc : (b.cache.cell i).src = i := by
      have := hunpending hstored i hsize
      rwa [← Cache.copySources_eq] at this
    have hdata : partialState b.state i =
        { cells := (b.cache.cells.filter fun cell => (i : Int) ∈ cell.seqId).map fun cell =>
            (cell.pos, if b.cache.ordered then cell.chronology else cell.pos)
          rows := some (b.cache.stateRows i)
          history := if b.cache.ordered then b.state.history.tokens i else .empty } := by
      unfold partialState
      dsimp only
      rw [if_neg (by simp [hstrict]), Int.toNat_natCast]
      have hsrc : (b.state.cache.cell i).src = i := hsrc
      rw [hsrc, if_pos ⟨hrange, by exact_mod_cast hsize, hrange⟩]
    rw [hdata] at hlimit ⊢
    refine ⟨rfl, fun hs => absurd (hstrict.symm.trans hs) Bool.false_ne_true,
      fun cell hcell => ?_, fun ho => if_pos ho, ?_⟩
    · obtain ⟨old, hold, rfl⟩ := List.mem_map.mp hcell
      rw [List.mem_filter, decide_eq_true_iff] at hold
      have hpos := (hready.accounted.counted.taken old hold.1).mpr (Finset.ne_empty_of_mem hold.2)
      refine ⟨hpos, ?_⟩
      dsimp only
      unfold Cell.chronology
      split
      · split
        next hgiven => exact hgiven
        · exact hpos
      · exact hpos
    · have hctx : b.cache.size ≤ env.nCtxMax := by
        show b.cache.cells.length ≤ _
        rw [hready.kind.size]
        exact hfresh.size
      exact history_fits rfl hlimit hctx hfresh.padded

theorem getElem?_setSnapshot (howns : b.owns seq = true)
    (i : Nat) : (b.setSnapshot seq snapshot).sequences[i]? =
      if (i : Int) = seq then some snapshot else b.sequences[i]? := by
  unfold owns at howns
  simp only [Bool.and_eq_true, decide_eq_true_eq] at howns
  unfold setSnapshot
  dsimp only
  rw [List.getElem?_set]
  split
  next heq =>
    rw [if_pos (by omega), if_pos (by omega)]
  next hne =>
    rw [if_neg (by omega)]

def SavedOrKept (env : SpecEnv) (b b' : Checkpointed) (seq : Int) (ok : Bool) : Prop :=
  ∀ (i : Nat) (snapshot : Snapshot), b'.sequences[i]? = some snapshot → snapshot.saved = true →
    if (i : Int) = seq ∧ ok = true then SavedAt env b' i snapshot else Keeps b b' i snapshot

theorem keeps_withCache (h : ∀ seq bound, Retains seq bound b.cache.cells c.cells) {i}
    (hkept : b.sequences[i]? = some snapshot) :
    Keeps b (b.withCache c) i snapshot :=
  ⟨hkept, h i _, fun _ => .refl _⟩

theorem savedOrKept_of_failure (h : ∀ seq bound, Retains seq bound b.cache.cells c.cells) :
    SavedOrKept env b (b.withCache c) seq false := by
  intro i snapshot hi _
  rw [if_neg (by simp)]
  exact keeps_withCache h hi

theorem savedOrKept_of_success
    (h : ∀ seq bound, Retains seq bound b.cache.cells c.cells) (howns : b.owns seq = true)
    (hsaved : ∀ i : Nat, (i : Int) = seq →
      SavedAt env ((b.withCache c).setSnapshot seq snapshot) i snapshot) :
    SavedOrKept env b ((b.withCache c).setSnapshot seq snapshot) seq true := by
  intro i other hi _
  have howns : (b.withCache c).owns seq = true := howns
  rw [getElem?_setSnapshot howns] at hi
  split at hi
  next hseq =>
    cases hi
    rw [if_pos ⟨hseq, rfl⟩]
    exact hsaved i hseq
  next hne =>
    rw [if_neg fun hboth => hne hboth.1]
    exact ⟨hi, h i _, fun _ => .refl _⟩

/-- **What saving a checkpoint does.** -/
theorem save_outcome {ok} (hfresh : b₀.Fresh env) (hready : Ready b₀ b)
    (hcareful : b.Careful (.save seq)) (h : b.save env seq = some (b', ok)) :
    Ready b₀ b' ∧ b'.mode = b.mode ∧ SavedOrKept env b b' seq ok := by
  have hsame : Ready b₀ (b.withCache b.cache) :=
    { hready with }
  unfold save at h
  split at h
  · cases h
    exact ⟨hready, rfl, savedOrKept_of_failure (c := b.cache) fun _ _ => .refl _⟩
  next hmode =>
    -- the rows of the slot go to the shadow tensors
    have hshadow : ∀ {c : Cache} {b' : Checkpointed} {ok : Bool}, Ready b₀ (b.withCache c) →
        (∀ seq bound, Retains seq bound b.cache.cells c.cells) →
        (b.withCache c).checkpointSave seq = (b', ok) →
        Ready b₀ b' ∧ b'.mode = b.mode ∧ SavedOrKept env b b' seq ok := by
      intro c b' ok hready' hretains hsave
      unfold checkpointSave at hsave
      split at hsave
      next hfound =>
        cases hsave
        rw [Bool.and_eq_true] at hfound
        refine ⟨{ hready' with }, rfl, savedOrKept_of_success hretains hfound.1 fun i hi => ?_⟩
        have hposition : c.checkpointPosition i = b.cache.checkpointPosition i :=
          Cache.position_congr (Cache.stores_of_retains (hretains i))
        subst hi
        refine ⟨rfl, fun _ => rfl, fun hcpu => ?_, fun _ order entry hentry => ?_⟩
        · exact absurd (hmode.symm.trans hcpu) (by decide)
        · show entry.1 < c.checkpointPosition i
          rw [hposition]
          exact hcareful.2 hmode entry (History.mem_tokens hentry)
      · cases hsave
        exact ⟨hready', rfl, savedOrKept_of_failure hretains⟩
    unfold saveGpu at h
    split at h
    · obtain ⟨⟨c, status⟩, hupdate, heq⟩ := Option.map_eq_some_iff.mp h
      have hretains : ∀ seq bound, Retains seq bound b.cache.cells c.cells :=
        fun _ _ => Cache.retains_update hready.defrag hupdate
      dsimp only at heq
      split at heq
      · exact hshadow (hready.update hupdate) hretains heq
      · cases heq
        exact ⟨hready.update hupdate, rfl, savedOrKept_of_failure hretains⟩
    · exact hshadow (c := b.cache) hsame (fun _ _ => .refl _) (Option.some.inj h)
  next hmode =>
  unfold saveCpu at h
  split at h
  next howned =>
    rw [Bool.and_eq_true] at howned
    obtain ⟨⟨c, settled⟩, hsettle, heq⟩ := Option.map_eq_some_iff.mp h
    obtain ⟨hready', hretains, hrows⟩ := settleKeys_outcome hready hsettle
    obtain ⟨hunpending, -⟩ := hrows hfresh (hcareful.1 hmode)
    dsimp only at heq
    split at heq
    next hwritten =>
      cases heq
      simp only [Bool.and_eq_true, decide_eq_true_eq] at hwritten
      refine ⟨{ hready' with }, rfl, savedOrKept_of_success hretains howned.1 fun i hi => ?_⟩
      subst hi
      have hslots : c.qnextStateSlots = b.cache.qnextStateSlots :=
        hready'.kind.slots.trans hready.kind.slots.symm
      have hrange : c.qnextSeqIdInRange i = true := by
        unfold Cache.qnextSeqIdInRange
        rw [hslots]
        exact howned.2
      have hrecorded := recorded_partialState hfresh hready' hunpending hrange hwritten.2
      refine ⟨rfl, fun hgpu => ?_, fun _ => ⟨_, rfl, ?_⟩, fun hgpu => ?_⟩
      · exact absurd (hmode.symm.trans hgpu) (by decide)
      · exact { hrecorded with }
      · exact absurd (hmode.symm.trans hgpu) (by decide)
    · cases heq
      exact ⟨hready', rfl, savedOrKept_of_failure hretains⟩
  · cases h
    exact ⟨hready, rfl, savedOrKept_of_failure (c := b.cache) fun _ _ => .refl _⟩

end Checkpointed

end ExpertStreaming.KvCache
