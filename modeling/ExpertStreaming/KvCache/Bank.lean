import ExpertStreaming.KvCache.Snapshots

/-! # Calls and the bank

A public call deletes the checkpoints it knows to be spoilt. This file says when it spoils no
other: what a call has to leave alone below the position of a checkpoint, in the cells and in
the history, and that the checkpoints a careful call leaves are of sequences it leaves alone.
-/
namespace ExpertStreaming.KvCache
open Lib Option

/-! ## Calls that leave a sequence alone -/

/-- **A call that leaves the tokens of a sequence below a bound where they are.** -/
def Cache.Spares (c : Cache) (seq bound : Int) : Call → Prop
  | .decode batch _ => ValidBatch c.ordered batch ∧
      ∀ token ∈ batch, seq ∈ token.seqs → bound ≤ token.pos
  | .seqRm r p0 p1 => (0 ≤ r ∧ r ≠ seq) ∨ bound ≤ p0 ∨ p1 = 0
  | .seqCp _ dst _ _ _ => dst ≠ seq
  | .seqKeep r => r = seq
  | .seqAdd r p0 p1 delta _ => c.MovesBehind r p0 p1 (shifted delta) seq bound
  | .seqDiv r p0 p1 d _ => c.MovesBehind r p0 p1 (divided d) seq bound
  | .clear | .defrag => False
  | .update => True

/-- **A call that leaves the history of a sequence below a bound as it is.** -/
def History.Spares (h : History) (seq bound : Int) : Call → Prop
  | .decode batch _ => ∀ token ∈ batch, seq ∈ token.seqs → bound ≤ token.pos
  | .seqRm r p0 p1 => (0 ≤ r ∧ r ≠ seq) ∨ bound ≤ p0 ∨ p1 = 0
  | .seqCp _ dst _ _ _ => dst ≠ seq
  | .seqKeep r => r = seq
  | .seqAdd r p0 p1 delta _ =>
    h.MovesBehind r (max 0 p0) (highest p1) (Cache.shifted delta) seq bound
  | .seqDiv r p0 p1 d _ => h.MovesBehind r (max 0 p0) (highest p1) (Cache.divided d) seq bound
  | .clear => False
  | .defrag | .update => True

variable {reply : Reply}

theorem Cache.retains_call {env c c' a seq bound} (hcounted : c.Accounted)
    (hdefrag : c.doDefrag = false) (hspares : c.Spares seq bound a)
    (h : call env c a = some (c', reply)) :
    Retains seq bound c.cells c'.cells := by
  cases a with
  | decode batch side => exact retains_decode hcounted hdefrag hspares.2 h
  | seqRm r p0 p1 =>
    obtain rfl := congrArg Prod.fst (some.inj h)
    exact retains_seqRm hspares
  | seqCp src dst p0 p1 side => exact retains_copySequence hcounted.plain hspares h
  | seqKeep r =>
    obtain rfl := congrArg Prod.fst (some.inj h)
    obtain rfl : r = seq := hspares
    exact retains_seqKeep
  | seqAdd r p0 p1 delta side => exact retains_addPositions hcounted hspares h
  | seqDiv r p0 p1 d side => exact retains_dividePositions hcounted hspares h
  | clear => exact absurd hspares id
  | defrag => exact absurd hspares id
  | update =>
    unfold call at h
    obtain ⟨⟨settled, status⟩, hsettled, heq⟩ := map_eq_some_iff.mp h
    cases heq
    exact retains_update hdefrag hsettled

theorem Qwen.transformPositions_history {env : Env} {q q' : Qwen}
    {r p0 p1 delta divisor : Int} {refused : Option String} (hvalid : q.history.Valid)
    (h : q.transformPositions env r p0 p1 delta divisor refused = (q', reply)) :
    q'.history = q.history ∨
      (divisor = 1 ∧ q.history.add r (max 0 p0) (highest p1) delta = .ok q'.history) ∨
      (divisor ≠ 1 ∧ q.history.divide r (max 0 p0) (highest p1) divisor = .ok q'.history) := by
  rcases transformPositions_outcome env q r p0 p1 delta divisor refused with
    ⟨message, heq⟩ | ⟨heq, -⟩ | ⟨plan, history, logitPos, -, hsides, heq⟩
  · obtain ⟨rfl, -⟩ := Prod.mk.inj (h.symm.trans heq)
    exact .inl rfl
  · obtain ⟨rfl, -⟩ := Prod.mk.inj (h.symm.trans heq)
    exact .inl rfl
  · obtain ⟨rfl, -⟩ := Prod.mk.inj (h.symm.trans heq)
    exact .inr (moveHistory_cases (moveSides_history hsides))

theorem History.divisor_pos {h h' : History} {r p0 p1 d : Int}
    (hok : h.divide r p0 p1 d = .ok h') : 0 < d := by
  unfold divide at hok
  split at hok
  · cases hok
  · omega

/-- **What a call does to the history of a Qwen context.** -/
theorem Qwen.call_history {env : Env} {q q' : Qwen} {a : Call}
    (hvalid : q.history.Valid) (h : q.call env a = some (q', reply)) :
    q'.history.Valid ∧ ∀ seq bound, q.history.Spares seq bound a →
      History.Retains seq bound q.history q'.history := by
  cases a with
  | decode batch refused =>
    obtain ⟨slot, slotReply, -, ⟨-, hsame, -⟩ | ⟨-, -, haccept, -⟩⟩ := decode_cases h
    · rw [hsame]
      exact ⟨hvalid, fun _ _ _ => .refl _⟩
    · exact acceptBatch_retains hvalid haccept
  | seqRm r p0 p1 =>
    have h : q.seqRm r p0 p1 = (q', reply) := some.inj h
    unfold seqRm at h
    dsimp only at h
    split at h
    · cases h
      exact ⟨hvalid.remove r p0 p1, fun seq bound hspares => History.retains_remove hspares⟩
    · cases h
      exact ⟨hvalid, fun _ _ _ => .refl _⟩
  | seqCp src dst p0 p1 refused =>
    rcases seqCp_cases h with rfl | ⟨-, -, hcopy, -⟩
    · exact ⟨hvalid, fun _ _ _ => .refl _⟩
    · exact ⟨hvalid.copy hcopy, fun seq bound hspares => History.retains_copy hspares hcopy⟩
  | seqKeep r =>
    obtain ⟨rfl, -⟩ := Prod.mk.inj (some.inj h)
    refine ⟨hvalid.keep r, fun seq bound hspares => ?_⟩
    obtain rfl : r = seq := hspares
    exact History.retains_keep
  | seqAdd r p0 p1 delta refused =>
    have h := some.inj h
    split at h
    · cases h
      exact ⟨hvalid, fun _ _ _ => .refl _⟩
    · rcases transformPositions_history hvalid h with hsame | ⟨-, hadd⟩ | ⟨hone, -⟩
      · rw [hsame]
        exact ⟨hvalid, fun _ _ _ => .refl _⟩
      · exact ⟨hvalid.add hadd, fun seq bound hspares => History.retains_add hvalid hspares hadd⟩
      · exact absurd rfl hone
  | seqDiv r p0 p1 d refused =>
    have h := some.inj h
    split at h
    · cases h
      exact ⟨hvalid, fun _ _ _ => .refl _⟩
    next hd =>
    rcases transformPositions_history hvalid h with hsame | ⟨hone, -⟩ | ⟨-, hdivide⟩
    · rw [hsame]
      exact ⟨hvalid, fun _ _ _ => .refl _⟩
    · exact absurd hone hd
    · exact ⟨hvalid.divide (History.divisor_pos hdivide) hdivide,
        fun seq bound hspares => History.retains_divide hspares hdivide⟩
  | clear =>
    obtain ⟨rfl, -⟩ := Prod.mk.inj (some.inj h)
    exact ⟨History.valid_empty, fun seq bound hspares => absurd hspares id⟩
  | defrag =>
    obtain ⟨rfl, -⟩ := Prod.mk.inj (some.inj h)
    exact ⟨hvalid, fun _ _ _ => .refl _⟩
  | update =>
    unfold call at h
    obtain ⟨r, -, heq⟩ := map_eq_some_iff.mp h
    cases heq
    exact ⟨hvalid, fun _ _ _ => .refl _⟩

/-! ## The positions of a sequence -/

namespace Cache

variable {c c' : Cache} {seq : Int}

theorem Stores.lt_position {t} (h : c.Stores seq t) : t.pos < c.checkpointPosition seq := by
  obtain ⟨cell, hcell, -, hmem, -, hpos⟩ := h
  have hle : cell.pos ≤ ((c.cells.filter fun cell => seq ∈ cell.seqId).map (·.pos)).foldl max (-1) := by
    refine le_foldl_max (.inl (List.mem_map.mpr ⟨cell, ?_, rfl⟩))
    rw [List.mem_filter, decide_eq_true_iff]
    exact ⟨List.mem_of_getElem? hcell, hmem⟩
  unfold checkpointPosition
  omega

def Reaches (c : Cache) (seq bound : Int) : Prop :=
  bound ≤ 0 ∨ ∃ t, c.Stores seq t ∧ t.pos = bound - 1

theorem reaches_position : c.Reaches seq (c.checkpointPosition seq) := by
  rcases foldl_max_mem ((c.cells.filter fun cell => seq ∈ cell.seqId).map (·.pos)) (-1) with
    hstart | hmem
  · refine .inl ?_
    unfold checkpointPosition
    omega
  · obtain ⟨cell, hcell, hpos⟩ := List.mem_map.mp hmem
    rw [List.mem_filter, decide_eq_true_iff] at hcell
    obtain ⟨i, hi⟩ := List.mem_iff_getElem?.mp hcell.1
    by_cases hneg : cell.pos < 0
    · refine .inl ?_
      unfold checkpointPosition
      omega
    · refine .inr ⟨⟨cell.order, cell.pos, i⟩, ⟨cell, hi, Int.not_lt.mp hneg, hcell.2, rfl, rfl⟩, ?_⟩
      unfold checkpointPosition
      show cell.pos = _
      omega

theorem position_nonneg : 0 ≤ c.checkpointPosition seq := by
  have : -1 ≤ ((c.cells.filter fun cell => seq ∈ cell.seqId).map (·.pos)).foldl max (-1) :=
    le_foldl_max (.inr (Int.le_refl _))
  unfold checkpointPosition
  omega

theorem Reaches.le_position {bound} (h : c.Reaches seq bound) :
    bound ≤ c.checkpointPosition seq := by
  rcases h with hzero | ⟨t, ht, hpos⟩
  · exact Int.le_trans hzero position_nonneg
  · have := ht.lt_position
    omega

theorem Reaches.of_retains {bound} (h : c.Reaches seq bound)
    (hretains : Retains seq bound c.cells c'.cells) : c'.Reaches seq bound := by
  rcases h with hzero | ⟨t, ht, hpos⟩
  · exact .inl hzero
  · exact .inr ⟨t, (hretains.stores_iff (by omega)).mpr ht, hpos⟩

theorem position_congr (h : ∀ t, c'.Stores seq t ↔ c.Stores seq t) :
    c'.checkpointPosition seq = c.checkpointPosition seq := by
  have hle : ∀ {a b : Cache}, (∀ t, a.Stores seq t → b.Stores seq t) →
      a.checkpointPosition seq ≤ b.checkpointPosition seq := by
    intro a b hsub
    refine Reaches.le_position ?_
    have hreaches : a.Reaches seq (a.checkpointPosition seq) := reaches_position
    rcases hreaches with hzero | ⟨t, ht, hpos⟩
    · exact .inl hzero
    · exact .inr ⟨t, hsub t ht, hpos⟩
  exact Int.le_antisymm (hle fun t => (h t).mp) (hle fun t => (h t).mpr)

end Cache

/-! ## Careful calls -/

namespace Checkpointed

variable {env : SpecEnv} {b b' : Checkpointed}

def Appends (c : Cache) (batch : List BatchToken) : Prop :=
  Cache.ValidBatch c.ordered batch ∧ ∀ token ∈ batch, ∀ seq ∈ token.seqs, ∀ cell ∈ c.cells,
    seq ∈ cell.seqId → cell.pos < token.pos

instance (c : Cache) (batch : List BatchToken) : Decidable (Appends c batch) :=
  inferInstanceAs (Decidable
    ((∀ token ∈ batch, 0 ≤ token.pos ∧ (c.ordered = false → token.seqs ≠ [])) ∧
      ∀ token ∈ batch, ∀ seq ∈ token.seqs, ∀ cell ∈ c.cells,
        seq ∈ cell.seqId → cell.pos < token.pos))

/-- **A change of positions that respects the checkpoints it leaves**: it moves no token into
the part of a sequence that a checkpoint counts on, nor one that is in it. -/
def LeavesCheckpoints (b : Checkpointed) (seq p0 p1 : Int) (next : Int → Option Int) : Prop :=
  ∀ i < b.sequences.length,
    ((checkpointInvalidate b.sequences seq p0 p1).getD i {}).saved = true →
    b.cache.MovesBehind seq p0 p1 next i (b.sequences.getD i {}).nPast ∧
      (b.mode = .gpuFallback → b.state.history.MovesBehind seq (max 0 p0) (highest p1) next i
        (b.sequences.getD i {}).nPast)

instance (b : Checkpointed) (seq p0 p1 : Int) (next : Int → Option Int) :
    Decidable (b.LeavesCheckpoints seq p0 p1 next) :=
  inferInstanceAs (Decidable (∀ i < _, _))

def CarefulCall (b : Checkpointed) : Call → Prop
  | .decode batch _ => Appends b.cache batch
  | .seqAdd seq p0 p1 delta _ => b.LeavesCheckpoints seq p0 p1 (Cache.shifted delta)
  | .seqDiv seq p0 p1 d _ =>
    (b.cache.ordered = false → 0 < d) ∧ b.LeavesCheckpoints seq p0 p1 (Cache.divided d)
  | .defrag => False
  | .seqRm .. | .seqCp .. | .seqKeep .. | .clear | .update => True

instance (b : Checkpointed) (a : Call) : Decidable (b.CarefulCall a) :=
  match a with
  | .decode batch _ => inferInstanceAs (Decidable (Appends b.cache batch))
  | .seqAdd seq p0 p1 delta _ =>
    inferInstanceAs (Decidable (b.LeavesCheckpoints seq p0 p1 (Cache.shifted delta)))
  | .seqDiv seq p0 p1 d _ => inferInstanceAs (Decidable
      ((b.cache.ordered = false → 0 < d) ∧ b.LeavesCheckpoints seq p0 p1 (Cache.divided d)))
  | .defrag => .isFalse id
  | .seqRm .. | .seqCp .. | .seqKeep .. | .clear | .update => .isTrue trivial

variable {a : Call} {side refused : Option String} {seq p0 p1 : Int} {q q' : Qwen} {reply : Reply}
  {b₀ : Checkpointed} {bank : List Snapshot} {i : Nat} {snapshot : Snapshot}

theorem CarefulCall.countable (h : b.CarefulCall a) : b.cache.Countable a := by
  cases a with
  | decode batch side => exact h.1
  | seqDiv seq p0 p1 d side => exact h.1
  | seqRm | seqCp | seqKeep | seqAdd | clear | defrag | update => trivial

theorem countable_withSide {c : Cache} (h : c.Countable a) : c.Countable (a.withSide side) := by
  cases a <;> exact h

theorem spares_withSide {c : Cache} {bound : Int}
    (h : c.Spares seq bound a) : c.Spares seq bound (a.withSide side) := by
  cases a <;> exact h

theorem withSide_ne_defrag (h : a ≠ .defrag) :
    a.withSide side ≠ .defrag := by
  cases a <;> first | exact h | exact nofun

theorem CarefulCall.ne_defrag (h : b.CarefulCall a) : a ≠ .defrag := by
  rintro rfl
  exact h

/-! ## The invariant of the context -/

/-- **The invariant of a context** that was created as `b₀`. -/
structure Ready (b₀ b : Checkpointed) : Prop where
  accounted : b.cache.Accounted
  kind : SameKind b₀.cache b.cache
  shapes : b.cache.stateShapes = b₀.cache.stateShapes
  defrag : b.cache.doDefrag = false
  valid : b.state.history.Valid
  plainHistory : b.cache.ordered = false → b.state.history = {}

theorem callState_cache (h : callState env.toEnv q a = some (q', reply)) :
    ∃ side, KvCache.call env.toEnv q.cache (a.withSide side) = some (q'.cache, reply) ∨
      KvCache.call env.toEnv q.cache a = some (q'.cache, reply) := by
  unfold callState at h
  split at h
  next ho =>
    obtain ⟨side, hside⟩ := Qwen.call_cache ho h
    exact ⟨side, .inl hside⟩
  · obtain ⟨⟨c, reply'⟩, hc, heq⟩ := map_eq_some_iff.mp h
    cases heq
    exact ⟨none, .inr hc⟩

theorem callState_plain (ho : q.cache.ordered = false)
    (h : callState env.toEnv q a = some (q', reply)) : q'.history = q.history := by
  unfold callState at h
  rw [if_neg (by simp [ho]), map_eq_some_iff] at h
  obtain ⟨r, -, heq⟩ := h
  cases heq
  rfl

/-- **A careful call keeps the invariant.** -/
theorem Ready.callState (h : Ready b₀ b) (hcareful : b.CarefulCall a)
    (hcall : callState env.toEnv b.state a = some (q', reply)) (bank : List Snapshot) :
    Ready b₀ { b with state := q', sequences := bank } := by
  obtain ⟨a', hside, hcount, hdefrag⟩ : ∃ a', KvCache.call env.toEnv b.cache a' =
      some (q'.cache, reply) ∧ b.cache.Countable a' ∧ a' ≠ .defrag := by
    obtain ⟨side, hside | hsame⟩ := callState_cache hcall
    · exact ⟨_, hside, countable_withSide hcareful.countable,
        withSide_ne_defrag hcareful.ne_defrag⟩
    · exact ⟨a, hsame, hcareful.countable, hcareful.ne_defrag⟩
  have hplain := h.accounted.plain
  have hframe := framed_call hplain hdefrag hside
  have hstep : KvCache.Step env.toEnv b.cache (a', reply) q'.cache := hside
  refine ⟨h.accounted.step hstep hcount, h.kind.trans hframe.toSameKind,
    hframe.shapes.trans h.shapes, hframe.defrag h.defrag, ?_, fun ho => ?_⟩
  · cases ho : b.cache.ordered with
    | false =>
      show q'.history.Valid
      rw [callState_plain ho hcall]
      exact h.valid
    | true =>
      have hqwen : b.state.call env.toEnv a = some (q', reply) := by
        unfold Checkpointed.callState at hcall
        rwa [if_pos ho] at hcall
      exact (Qwen.call_history h.valid hqwen).1
  · have hold : b.cache.ordered = false := hframe.ordered.symm.trans ho
    exact (callState_plain hold hcall).trans (h.plainHistory hold)

/-! ## The checkpoints a call leaves -/

theorem saved_of_mapIdx {p : Nat → Snapshot → Prop} [∀ i snapshot, Decidable (p i snapshot)]
    (h : (bank.mapIdx fun i s => if p i s then s.delete else s)[i]? = some snapshot)
    (hsaved : snapshot.saved = true) : bank[i]? = some snapshot ∧ ¬ p i snapshot := by
  rw [List.getElem?_mapIdx, map_eq_some_iff] at h
  obtain ⟨old, hold, heq⟩ := h
  split at heq
  · subst heq
    cases hsaved
  next hnot =>
    subst heq
    exact ⟨hold, hnot⟩

theorem spares_of_invalidate (h : (checkpointInvalidate bank seq p0 p1)[i]? = some snapshot)
    (hsaved : snapshot.saved = true) :
    bank[i]? = some snapshot ∧
      ((0 ≤ seq ∧ seq ≠ i) ∨ snapshot.nPast ≤ p0 ∨ p1 = 0) := by
  obtain ⟨hold, hnot⟩ := saved_of_mapIdx h hsaved
  refine ⟨hold, ?_⟩
  by_contra hspoilt
  refine hnot ⟨?_, hsaved, ?_⟩ <;> omega

/-- **What a step leaves of a checkpoint**: the snapshot, and what it counts on. -/
structure Keeps (b b' : Checkpointed) (i : Nat) (snapshot : Snapshot) : Prop where
  kept : b.sequences[i]? = some snapshot
  tokens : Retains i snapshot.nPast b.cache.cells b'.cache.cells
  history : b.mode = .gpuFallback →
    History.Retains i snapshot.nPast b.state.history b'.state.history

theorem Keeps.same (hkept : b.sequences[i]? = some snapshot)
    (hstate : b'.state = b.state) : Keeps b b' i snapshot := by
  refine ⟨hkept, ?_, fun _ => ?_⟩
  · show Retains i snapshot.nPast b.cache.cells b'.state.cache.cells
    rw [hstate]
    exact .refl _
  · rw [hstate]
    exact .refl _

theorem Keeps.of_spares (hready : Ready b₀ b)
    (hcall : callState env.toEnv b.state a = some (q', reply))
    (hkept : b.sequences[i]? = some snapshot) (hcells : b.cache.Spares i snapshot.nPast a)
    (hhistory : b.mode = .gpuFallback → b.state.history.Spares i snapshot.nPast a) :
    Keeps b { b with state := q', sequences := bank } i snapshot := by
  refine ⟨hkept, ?_, fun hmode => ?_⟩
  · obtain ⟨side, hside | hsame⟩ := callState_cache hcall
    · exact Cache.retains_call hready.accounted hready.defrag (spares_withSide hcells) hside
    · exact Cache.retains_call hready.accounted hready.defrag hcells hsame
  · cases ho : b.cache.ordered with
    | false =>
      show History.Retains i snapshot.nPast b.state.history q'.history
      rw [callState_plain ho hcall]
      exact .refl _
    | true =>
      have hqwen : b.state.call env.toEnv a = some (q', reply) := by
        unfold Checkpointed.callState at hcall
        rwa [if_pos ho] at hcall
      exact (Qwen.call_history hready.valid hqwen).2 i snapshot.nPast (hhistory hmode)

theorem transformPositions_still {delta divisor}
    (h : q.transformPositions env.toEnv seq p0 p1 delta divisor refused = (q', reply))
    (hstill : ¬ (reply = .done ∧ max 0 p0 < highest p1)) : q' = q := by
  by_cases hempty : highest p1 ≤ max 0 p0
  · have hsame : (q.transformPositions env.toEnv seq p0 p1 delta divisor refused).1 = q := by
      unfold Qwen.transformPositions
      dsimp only
      split
      · rfl
      · rw [if_pos (.inl hempty)]
    exact (congrArg Prod.fst h).symm.trans hsame
  · rcases Qwen.transformPositions_outcome env.toEnv q seq p0 p1 delta divisor refused with
      ⟨message, heq⟩ | ⟨heq, -⟩ | ⟨plan, history, logitPos, -, -, heq⟩
    · exact congrArg Prod.fst (h.symm.trans heq)
    · exact congrArg Prod.fst (h.symm.trans heq)
    · have hdone : reply = .done := congrArg Prod.snd (h.symm.trans heq)
      exact absurd ⟨hdone, Int.not_le.mp hempty⟩ hstill

theorem seqRm_done {c : Cache} (hplain : c.recurrent = false) (seq p0 p1 : Int) :
    (c.seqRm seq p0 p1).2 = true := by
  unfold Cache.seqRm
  rw [hplain, Bool.false_and, if_neg Bool.false_ne_true]

theorem callState_seqRm (hplain : q.cache.recurrent = false)
    (h : callState env.toEnv q (.seqRm seq p0 p1) = some (q', reply)) :
    reply = .done ∧ q'.cache = (q.cache.seqRm seq p0 p1).1 ∧
      q'.history = if q.cache.ordered then q.history.remove seq p0 p1 else q.history := by
  have hdone := seqRm_done hplain seq p0 p1
  unfold callState at h
  split at h
  next ho =>
    have h : q.seqRm seq p0 p1 = (q', reply) := some.inj h
    unfold Qwen.seqRm at h
    rw [if_pos hdone] at h
    cases h
    exact ⟨rfl, rfl, (if_pos ho).symm⟩
  next ho =>
  have h := some.inj h
  dsimp only at h
  rw [if_pos hdone] at h
  cases h
  exact ⟨rfl, rfl, (if_neg ho).symm⟩

theorem callState_seqCp_still {src dst}
    (h : callState env.toEnv b.state (.seqCp src dst p0 p1 refused) = some (q', reply))
    (hstill : ¬ (reply = .done ∧ src ≠ dst ∧
      ¬ (b.cache.ordered = true ∧ (b.cache.copiedOrders src p0 p1).isEmpty = true))) :
    q' = b.state := by
  unfold callState at h
  split at h
  · rcases Qwen.seqCp_cases h with hsame | ⟨hdone, ⟨hne, hsome⟩, -⟩
    · exact hsame
    · exact absurd ⟨hdone, hne, fun hempty => hsome hempty.2⟩ hstill
  next ho =>
  have ho := Bool.eq_false_of_not_eq_true ho
  obtain ⟨⟨c, reply'⟩, hcopy, heq⟩ := map_eq_some_iff.mp h
  cases heq
  have hcopy : b.cache.copySequence env.toEnv src dst p0 p1 refused = some (c, reply') := hcopy
  have hsame : c = b.cache := by
    unfold Cache.copySequence at hcopy
    split at hcopy
    · cases hcopy
      rfl
    next hne =>
    rw [ho, Bool.false_and, Bool.false_and, if_neg Bool.false_ne_true] at hcopy
    split at hcopy
    · cases hcopy
      rfl
    rw [if_neg Bool.false_ne_true, map_eq_some_iff] at hcopy
    obtain ⟨copied, -, hdone⟩ := hcopy
    cases hdone
    exact absurd ⟨rfl, hne, fun hordered => by rw [ho] at hordered; cases hordered.1⟩ hstill
  rw [hsame]

theorem callState_moved_still {amount still}
    (ha : (a = .seqAdd seq p0 p1 amount refused ∧ still = decide (amount = 0)) ∨
      (a = .seqDiv seq p0 p1 amount refused ∧ still = decide (amount = 1)))
    (h : callState env.toEnv b.state a = some (q', reply))
    (hstill : ¬ (reply = .done ∧ still = false ∧
      (b.cache.ordered = true → max 0 p0 < highest p1))) : q' = b.state := by
  unfold callState at h
  split at h
  next ho =>
    have hquiet : still = false → ¬ (reply = .done ∧ max 0 p0 < highest p1) :=
      fun hnot hmoved => hstill ⟨hmoved.1, hnot, fun _ => hmoved.2⟩
    rcases ha with ⟨rfl, rfl⟩ | ⟨rfl, rfl⟩
    · have h := some.inj h
      split at h
      · exact (congrArg Prod.fst h).symm
      next hamount => exact transformPositions_still h (hquiet (decide_eq_false hamount))
    · have h := some.inj h
      split at h
      · exact (congrArg Prod.fst h).symm
      next hamount => exact transformPositions_still h (hquiet (decide_eq_false hamount))
  next ho =>
  have ho := Bool.eq_false_of_not_eq_true ho
  obtain ⟨⟨c, reply'⟩, hcall, heq⟩ := map_eq_some_iff.mp h
  cases heq
  have hsame : c = b.cache := by
    rcases ha with ⟨rfl, rfl⟩ | ⟨rfl, rfl⟩
    · rcases Cache.addPositions_cases hcall with hsame | ⟨hordered, -⟩ | ⟨-, hamount, rfl, -⟩
      · exact hsame
      · cases ho.symm.trans hordered
      · exact absurd ⟨rfl, decide_eq_false hamount, fun hc => (nomatch ho.symm.trans hc)⟩ hstill
    · rcases Cache.dividePositions_cases hcall with
        hsame | ⟨-, hordered, -⟩ | ⟨-, hamount, rfl, -⟩
      · exact hsame
      · cases ho.symm.trans hordered
      · exact absurd ⟨rfl, decide_eq_false hamount, fun hc => (nomatch ho.symm.trans hc)⟩ hstill
  rw [hsame]

theorem LeavesCheckpoints.moves {next} (h : b.LeavesCheckpoints seq p0 p1 next)
    (hleft : (checkpointInvalidate b.sequences seq p0 p1)[i]? = some snapshot)
    (hsaved : snapshot.saved = true) :
    b.cache.MovesBehind seq p0 p1 next i snapshot.nPast ∧ (b.mode = .gpuFallback →
      b.state.history.MovesBehind seq (max 0 p0) (highest p1) next i snapshot.nPast) := by
  have hold := (spares_of_invalidate hleft hsaved).1
  have hlt := (List.getElem?_eq_some_iff.mp hold).1
  have hnow := h i hlt (by rw [List.getD_eq_getElem?_getD, hleft]; exact hsaved)
  rwa [List.getD_eq_getElem?_getD, hold] at hnow

/-- **A careful call keeps every checkpoint it leaves.** -/
theorem keeps_call
    (hready : Ready b₀ b) (hcareful : b.CarefulCall a)
    (hreach : ∀ {i : Nat} {snapshot : Snapshot}, b.sequences[i]? = some snapshot →
      snapshot.saved = true → b.cache.Reaches i snapshot.nPast)
    (hcall : b.call env a = some (b', reply)) (hleft : b'.sequences[i]? = some snapshot)
    (hsaved : snapshot.saved = true) : Keeps b b' i snapshot := by
  unfold call at hcall
  obtain ⟨⟨q', reply'⟩, hstate, heq⟩ := map_eq_some_iff.mp hcall
  cases heq
  dsimp only at hleft
  cases a with
  | decode batch refused =>
    have hkept : b.sequences[i]? = some snapshot := hleft
    -- the sequence holds the token before the bound, and new ones come behind it
    have hbehind : ∀ token ∈ batch, (i : Int) ∈ token.seqs → snapshot.nPast ≤ token.pos := by
      intro token hmem hseq
      rcases hreach hkept hsaved with hzero | ⟨t, ⟨cell, hcell, -, hown, -, hpos⟩, hlast⟩
      · exact Int.le_trans hzero (hcareful.1 token hmem).1
      · have := hcareful.2 token hmem i hseq cell (List.mem_of_getElem? hcell) hown
        omega
    exact .of_spares hready hstate hkept ⟨hcareful.1, hbehind⟩ fun _ => hbehind
  | seqRm seq p0 p1 =>
    obtain ⟨rfl, -⟩ := callState_seqRm hready.accounted.plain hstate
    obtain ⟨hkept, hspares⟩ := spares_of_invalidate hleft hsaved
    exact .of_spares hready hstate hkept hspares fun _ => hspares
  | seqCp src dst p0 p1 refused =>
    unfold bankAfter at hleft
    dsimp only at hleft
    split at hleft
    · obtain ⟨hkept, hnot⟩ := saved_of_mapIdx hleft hsaved
      have hdst : dst ≠ i := fun heq => hnot (.inr heq.symm)
      exact .of_spares hready hstate hkept hdst fun _ => hdst
    next hstill => exact .same hleft (callState_seqCp_still hstate hstill)
  | seqKeep seq =>
    obtain ⟨hkept, hnot⟩ := saved_of_mapIdx hleft hsaved
    have hseq : seq = i := by
      by_contra hne
      exact hnot (.inr fun heq => hne heq.symm)
    exact .of_spares hready hstate hkept hseq fun _ => hseq
  | seqAdd seq p0 p1 delta refused =>
    unfold bankAfter bankMoved at hleft
    dsimp only at hleft
    split at hleft
    · obtain ⟨hcells, hhistory⟩ := LeavesCheckpoints.moves hcareful hleft hsaved
      exact .of_spares hready hstate (spares_of_invalidate hleft hsaved).1 hcells hhistory
    next hstill =>
      exact .same hleft (callState_moved_still (.inl ⟨rfl, rfl⟩) hstate hstill)
  | seqDiv seq p0 p1 d refused =>
    unfold bankAfter bankMoved at hleft
    dsimp only at hleft
    split at hleft
    · obtain ⟨hcells, hhistory⟩ := LeavesCheckpoints.moves hcareful.2 hleft hsaved
      exact .of_spares hready hstate (spares_of_invalidate hleft hsaved).1 hcells hhistory
    next hstill =>
      exact .same hleft (callState_moved_still (.inr ⟨rfl, rfl⟩) hstate hstill)
  | clear =>
    obtain ⟨-, hnot⟩ := saved_of_mapIdx hleft hsaved
    exact absurd (.inl (by decide)) hnot
  | defrag => exact absurd hcareful id
  | update => exact .of_spares hready hstate hleft trivial fun _ => trivial

end Checkpointed

end ExpertStreaming.KvCache
