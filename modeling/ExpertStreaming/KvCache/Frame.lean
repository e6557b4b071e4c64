import ExpertStreaming.KvCache.Context

/-! # What no call changes

The kind of a cache, its size and its number of recurrent slots are fixed when it is
created.
-/
namespace ExpertStreaming.KvCache
open Lib Option

/-- What two caches have in common when one comes from the other by calls. -/
structure SameKind (c c' : Cache) : Prop where
  recurrent : c'.recurrent = c.recurrent
  ordered : c'.ordered = c.ordered
  hybrid : c'.hybrid = c.hybrid
  strict : c'.positionStrict = c.positionStrict
  size : c'.cells.length = c.cells.length
  slots : c'.qnextStateSlots = c.qnextStateSlots

namespace SameKind

variable {c c' c'' : Cache}

theorem refl (c : Cache) : SameKind c c := ⟨rfl, rfl, rfl, rfl, rfl, rfl⟩

theorem trans (h : SameKind c c') (h' : SameKind c' c'') : SameKind c c'' :=
  ⟨h'.recurrent.trans h.recurrent, h'.ordered.trans h.ordered, h'.hybrid.trans h.hybrid,
    h'.strict.trans h.strict, h'.size.trans h.size, h'.slots.trans h.slots⟩

theorem hasQnextState (h : SameKind c c') : c'.hasQnextState = c.hasQnextState := by
  unfold Cache.hasQnextState
  rw [h.strict, h.slots]

end SameKind

namespace Cache

variable {c c' c'' : Cache}

def stateShapes (c : Cache) : List (Option (GgmlType × Nat × Nat)) :=
  c.s.map (Option.map fun t => (t.type, t.ne0, t.ne1))

theorem stateShapes_mapBytes {f} (h : c'.s = mapBytes f c.s) :
    c'.stateShapes = c.stateShapes := by
  unfold stateShapes
  rw [h]
  refine List.ext_getElem? fun i => ?_
  simp only [mapBytes, List.getElem?_map, List.getElem?_mapIdx]
  cases c.s[i]? with
  | none => rfl
  | some tensor => cases tensor <;> rfl

theorem stateShapes_map {f} (hf : ∀ t, (f t).type = t.type ∧ (f t).ne0 = t.ne0 ∧ (f t).ne1 = t.ne1)
    (h : c'.s = c.s.map (Option.map f)) :
    c'.stateShapes = c.stateShapes := by
  unfold stateShapes
  rw [h, List.map_map]
  refine List.map_congr_left fun tensor _ => ?_
  cases tensor with
  | none => rfl
  | some t => simp [hf t]

theorem qnextStateSlots_congr (h : c'.stateShapes = c.stateShapes) :
    c'.qnextStateSlots = c.qnextStateSlots := by
  have hcount : ∀ c : Cache, c.qnextStateSlots = c.stateShapes.foldl
      (fun slots shape => shape.elim slots fun t => if slots = 0 then t.2.2 else slots) 0 := by
    intro c
    rw [stateShapes, List.foldl_map]
    unfold qnextStateSlots
    congr 1
    funext slots tensor
    cases tensor <;> rfl
  rw [hcount, hcount, h]

end Cache

/-- Besides, what stays as long as nobody asks for a defragmentation. -/
structure Framed (c c' : Cache) : Prop extends SameKind c c' where
  shapes : c'.stateShapes = c.stateShapes
  defrag : c.doDefrag = false → c'.doDefrag = false

namespace Framed

variable {c c' c'' : Cache}

theorem refl (c : Cache) : Framed c c := ⟨.refl c, rfl, id⟩

theorem trans (h : Framed c c') (h' : Framed c' c'') : Framed c c'' :=
  ⟨h.toSameKind.trans h'.toSameKind, h'.shapes.trans h.shapes, fun hc => h'.defrag (h.defrag hc)⟩

theorem of_shapes (hkind : c'.recurrent = c.recurrent ∧ c'.ordered = c.ordered ∧
      c'.hybrid = c.hybrid ∧ c'.positionStrict = c.positionStrict)
    (hsize : c'.cells.length = c.cells.length) (hshapes : c'.stateShapes = c.stateShapes)
    (hdefrag : c.doDefrag = false → c'.doDefrag = false) : Framed c c' :=
  ⟨⟨hkind.1, hkind.2.1, hkind.2.2.1, hkind.2.2.2, hsize, Cache.qnextStateSlots_congr hshapes⟩,
    hshapes, hdefrag⟩

theorem of_cells (hkind : c'.recurrent = c.recurrent ∧ c'.ordered = c.ordered ∧
      c'.hybrid = c.hybrid ∧ c'.positionStrict = c.positionStrict)
    (hsize : c'.cells.length = c.cells.length) (hstates : c'.s = c.s)
    (hdefrag : c'.doDefrag = c.doDefrag) : Framed c c' :=
  of_shapes hkind hsize (by rw [Cache.stateShapes, hstates]; rfl) fun hc => hdefrag.trans hc

end Framed

namespace Cache

variable {c c' : Cache}

theorem framed_clear : Framed c c.clear :=
  .of_shapes ⟨rfl, rfl, rfl, rfl⟩ (by simp [clear])
    (stateShapes_map (f := fun t => { t with bytes := fun _ => 0 }) (fun _ => ⟨rfl, rfl, rfl⟩) rfl) id

theorem framed_seqRm (seq p0 p1 : Int) : Framed c (c.seqRm seq p0 p1).1 := by
  unfold seqRm
  split
  · exact .refl c
  · exact .of_cells ⟨rfl, rfl, rfl, rfl⟩ (length_sweep c _) rfl rfl

theorem framed_seqKeep (seq : Int) : Framed c (c.seqKeep seq) :=
  .of_cells ⟨rfl, rfl, rfl, rfl⟩ (length_sweep c _) rfl rfl

theorem framed_replaceOrders (src dst p0 p1 : Int) :
    Framed c (c.replaceOrders src dst p0 p1) := by
  unfold replaceOrders
  split
  · exact .of_cells ⟨rfl, rfl, rfl, rfl⟩ (length_sweep c _) rfl rfl
  · exact .refl c

variable {p0 p1 seq : Int} {env : Env} {side : Option String} {reply : Reply} {g : Graphs}
  {batch : List BatchToken}

theorem framed_seqCp {src dst} (h : c.seqCp src dst p0 p1 = some c') :
    Framed c c' := by
  unfold seqCp seqCpRecurrent at h
  dsimp only at h
  split at h
  · split at h
    · split at h
      · cases h
        exact .of_cells ⟨rfl, rfl, rfl, rfl⟩ (by simp) rfl rfl
      · cases h
    · cases h
      exact .refl c
  · split at h
    · split at h
      · cases h
        exact .of_cells ⟨rfl, rfl, rfl, rfl⟩ (by simp [shareRows, recordCopy]) rfl rfl
      · cases h
    · cases h
      exact .of_cells ⟨rfl, rfl, rfl, rfl⟩ (by simp [shareRows]) rfl rfl

theorem copySequence_cases {src dst : Int}
    (h : c.copySequence env src dst p0 p1 side = some (c', reply)) :
    (c' = c ∧ (reply = .done → src = dst ∨ (c.ordered = true ∧ c.copiedOrders src p0 p1 = []))) ∨
    (src ≠ dst ∧ reply = .done ∧
      (c.replaceOrders src dst p0 p1).seqCp src dst p0 p1 = some c') := by
  unfold copySequence at h
  split at h
  next hself =>
    cases h
    exact .inl ⟨rfl, fun _ => .inl hself⟩
  next hne =>
  split at h
  · cases h
    exact .inl ⟨rfl, fun hdone => (nomatch hdone)⟩
  split at h
  · cases h
    exact .inl ⟨rfl, fun hdone => (nomatch hdone)⟩
  split at h
  next hnothing =>
    cases h
    rw [Bool.and_eq_true, List.isEmpty_iff] at hnothing
    exact .inl ⟨rfl, fun _ => .inr hnothing⟩
  · obtain ⟨copied, hcopied, heq⟩ := map_eq_some_iff.mp h
    cases heq
    exact .inr ⟨hne, rfl, hcopied⟩

theorem framed_copySequence {src dst}
    (h : c.copySequence env src dst p0 p1 side = some (c', reply)) :
    Framed c c' := by
  rcases copySequence_cases h with ⟨rfl, -⟩ | ⟨-, -, hcopied⟩
  · exact .refl _
  · exact (framed_replaceOrders src dst p0 p1).trans (framed_seqCp hcopied)

theorem framed_moveRecurrent (seq p0 p1 : Int) (f : Int → Int) :
    Framed c (c.moveRecurrent seq p0 p1 f) := by
  unfold moveRecurrent
  split
  · exact .of_cells ⟨rfl, rfl, rfl, rfl⟩ (by simp) rfl rfl
  · exact .refl c

theorem framed_seqAdd {delta} (h : c.seqAdd seq p0 p1 delta = some c') :
    Framed c c' := by
  unfold seqAdd at h
  split at h
  · cases h
  split at h
  · cases h
    exact .refl c
  split at h
  · cases h
    exact framed_moveRecurrent seq p0 p1 _
  · cases h
    exact .of_cells ⟨rfl, rfl, rfl, rfl⟩ (length_sweep c _) rfl rfl

theorem framed_seqDiv {d} (h : c.seqDiv seq p0 p1 d = some c') :
    Framed c c' := by
  unfold seqDiv at h
  split at h
  · cases h
  split at h
  · cases h
    exact .refl c
  split at h
  · cases h
  split at h
  · cases h
    exact framed_moveRecurrent seq p0 p1 _
  · cases h
    exact .of_cells ⟨rfl, rfl, rfl, rfl⟩ (by simp) rfl rfl

@[simp] theorem length_applyChanges (cells : List Cell) (changes : List (Nat × Cell)) :
    (applyChanges cells changes).length = cells.length := by
  unfold applyChanges
  induction changes generalizing cells with
  | nil => rfl
  | cons change rest ih => rw [List.foldl_cons, ih, List.length_set]

/-- **How a change of positions ends**: refused, with nothing to do, or with a plan applied. -/
theorem transformPositions_outcome (env : Env) (c : Cache) (seq p0 p1 delta divisor : Int)
    (side : Option String) :
    (∃ message, c.transformPositions env seq p0 p1 delta divisor side = (c, .threw message)) ∨
    (c.transformPositions env seq p0 p1 delta divisor side = (c, .done) ∧ 0 < divisor ∧
      (highest p1 ≤ max 0 p0 ∨ (divisor = 1 ∧ delta = 0))) ∨
    ∃ plan, (0 < divisor ∧
      Transform.planRows ⟨seq, max 0 p0, highest p1, delta, divisor⟩ c.cells (List.range c.size)
        { freeRows := c.freeRows } = .ok plan) ∧ side = none ∧
      c.transformPositions env seq p0 p1 delta divisor side = (c.applyPlan env plan, .done) := by
  unfold transformPositions
  dsimp only
  split
  · exact .inl ⟨_, rfl⟩
  next hdivisor =>
  split
  next hnothing => exact .inr (.inl ⟨rfl, Int.not_le.mp hdivisor, hnothing⟩)
  split
  · exact .inl ⟨_, rfl⟩
  next plan hplan =>
  split
  · exact .inl ⟨_, rfl⟩
  split
  · exact .inl ⟨_, rfl⟩
  · exact .inr (.inr ⟨plan, ⟨Int.not_le.mp hdivisor, hplan⟩, rfl, rfl⟩)

theorem transformPositions_cases (env : Env) (c : Cache) (seq p0 p1 delta divisor : Int)
    (side : Option String) :
    (c.transformPositions env seq p0 p1 delta divisor side).1 = c ∨
    ∃ plan, (0 < divisor ∧
      Transform.planRows ⟨seq, max 0 p0, highest p1, delta, divisor⟩ c.cells (List.range c.size)
        { freeRows := c.freeRows } = .ok plan) ∧
      (c.transformPositions env seq p0 p1 delta divisor side).1 = c.applyPlan env plan := by
  rcases transformPositions_outcome env c seq p0 p1 delta divisor side with
    ⟨message, heq⟩ | ⟨heq, -⟩ | ⟨plan, hplan, -, heq⟩
  · exact .inl (congrArg Prod.fst heq)
  · exact .inl (congrArg Prod.fst heq)
  · exact .inr ⟨plan, hplan, congrArg Prod.fst heq⟩

theorem framed_transformPositions (env : Env) (seq p0 p1 delta divisor : Int)
    (side : Option String) :
    Framed c (c.transformPositions env seq p0 p1 delta divisor side).1 := by
  rcases transformPositions_cases env c seq p0 p1 delta divisor side with heq | ⟨plan, -, heq⟩
  · rw [heq]
    exact .refl c
  · rw [heq]
    exact .of_cells ⟨rfl, rfl, rfl, rfl⟩ (length_applyChanges _ _) rfl rfl

theorem addPositions_cases {delta}
    (h : c.addPositions env seq p0 p1 delta side = some (c', reply)) :
    c' = c ∨ (c.ordered = true ∧ c' = (c.transformPositions env seq p0 p1 delta 1 side).1) ∨
      (c.ordered = false ∧ delta ≠ 0 ∧ reply = .done ∧ c.seqAdd seq p0 p1 delta = some c') := by
  unfold addPositions at h
  split at h
  · cases h
    exact .inl rfl
  next hdelta =>
  split at h
  next ho => exact .inr (.inl ⟨ho, (congrArg Prod.fst (some.inj h)).symm⟩)
  next ho =>
  obtain ⟨moved, hmoved, heq⟩ := map_eq_some_iff.mp h
  cases heq
  exact .inr (.inr ⟨Bool.eq_false_of_not_eq_true ho, hdelta, rfl, hmoved⟩)

theorem dividePositions_cases {d}
    (h : c.dividePositions env seq p0 p1 d side = some (c', reply)) :
    c' = c ∨
      (d ≠ 1 ∧ c.ordered = true ∧ c' = (c.transformPositions env seq p0 p1 0 d side).1) ∨
      (c.ordered = false ∧ d ≠ 1 ∧ reply = .done ∧ c.seqDiv seq p0 p1 d = some c') := by
  unfold dividePositions at h
  split at h
  · cases h
    exact .inl rfl
  next hd =>
  split at h
  next ho => exact .inr (.inl ⟨hd, ho, (congrArg Prod.fst (some.inj h)).symm⟩)
  next ho =>
  obtain ⟨moved, hmoved, heq⟩ := map_eq_some_iff.mp h
  cases heq
  exact .inr (.inr ⟨Bool.eq_false_of_not_eq_true ho, hd, rfl, hmoved⟩)

theorem framed_addPositions {delta}
    (h : c.addPositions env seq p0 p1 delta side = some (c', reply)) : Framed c c' := by
  rcases addPositions_cases h with rfl | ⟨-, rfl⟩ | ⟨-, -, -, hmoved⟩
  · exact .refl _
  · exact framed_transformPositions ..
  · exact framed_seqAdd hmoved

theorem framed_dividePositions {d}
    (h : c.dividePositions env seq p0 p1 d side = some (c', reply)) : Framed c c' := by
  rcases dividePositions_cases h with rfl | ⟨-, -, rfl⟩ | ⟨-, -, -, hmoved⟩
  · exact .refl _
  · exact framed_transformPositions ..
  · exact framed_seqDiv hmoved

/-! ## Updates and decoding -/

theorem framed_applyShift (g : Graphs) : Framed c (c.applyShift g) :=
  .of_cells ⟨rfl, rfl, rfl, rfl⟩ (by simp [applyShift]) rfl rfl

theorem framed_applyCopies (h : c.applyCopies = some c') : Framed c c' := by
  unfold applyCopies at h
  split at h
  · cases h
    exact .of_shapes ⟨rfl, rfl, rfl, rfl⟩ (by simp) (stateShapes_map
      (f := fun t => t.gatherRows t.nb1 c.copySources) (fun _ => ⟨rfl, rfl, rfl⟩) rfl) id
  · cases h

theorem framed_settleCopies (h : c.settleCopies = some c') : Framed c c' := by
  unfold settleCopies at h
  split at h
  · exact framed_applyCopies h
  · cases h
    exact .refl c

theorem framed_settleDefrag (h : c.settleDefrag g = some c') : Framed c c' := by
  unfold settleDefrag at h
  split at h
  · obtain ⟨moved, hmoved, rfl⟩ := map_eq_some_iff.mp h
    have hlength := (defragInternal_compacts hmoved).length
    unfold defragInternal at hmoved
    dsimp only at hmoved
    obtain ⟨d, -, rfl⟩ := map_eq_some_iff.mp hmoved
    split at hlength
    next hmoves =>
      rw [if_pos hmoves]
      exact .of_shapes ⟨rfl, rfl, rfl, rfl⟩ hlength rfl fun _ => rfl
    next hmoves =>
      rw [if_neg hmoves]
      exact .of_shapes ⟨rfl, rfl, rfl, rfl⟩ hlength rfl fun _ => rfl
  · cases h
    exact .refl c

theorem settleDefrag_still (hdefrag : c.doDefrag = false) (h : c.settleDefrag g = some c') :
    c' = c := by
  unfold settleDefrag at h
  rw [if_neg (by simp [hdefrag])] at h
  exact (some.inj h).symm

theorem update_cases {status} (h : c.update g = some (c', status)) :
    (c' = c ∧ status = 1) ∨
    ∃ shifted copied, (shifted = c ∨ shifted = c.applyShift g) ∧ Framed c shifted ∧
      shifted.settleCopies = some copied ∧ copied.settleDefrag g = some c' ∧ status = 0 := by
  unfold update at h
  split at h
  · cases h
    exact .inl ⟨rfl, rfl⟩
  · obtain ⟨settled, hsettled, heq⟩ := map_eq_some_iff.mp h
    cases heq
    obtain ⟨copied, hcopied, hdefrag⟩ := bind_eq_some_iff.mp hsettled
    refine .inr ⟨_, copied, ?_, ?_, hcopied, hdefrag, rfl⟩ <;> split
    · exact .inr rfl
    · exact .inl rfl
    · exact framed_applyShift g
    · exact .refl c

theorem framed_update {status} (h : c.update g = some (c', status)) :
    Framed c c' := by
  rcases update_cases h with ⟨rfl, -⟩ | ⟨shifted, copied, -, hshift, hcopied, hdefrag, -⟩
  · exact .refl _
  · exact hshift.trans ((framed_settleCopies hcopied).trans (framed_settleDefrag hdefrag))

theorem framed_findSlot (hplain : c.recurrent = false) (batch : List BatchToken) :
    Framed c (c.findSlot batch).1 := by
  rcases findSlot_cases hplain batch with ⟨head, heq⟩ | ⟨head, -, -, -, heq⟩
  · rw [heq]
    exact .of_cells ⟨rfl, rfl, rfl, rfl⟩ rfl rfl rfl
  · rw [heq]
    exact .of_cells ⟨rfl, rfl, rfl, rfl⟩ length_placeBatch rfl rfl

theorem decodeSlot_cases
    (hplain : c.recurrent = false) (h : c.decodeSlot env batch = some (c', reply)) :
    (c' = c ∧ reply ≠ .done) ∨ ∃ settled status, c.update env.graphs = some (settled, status) ∧
      ((c' = settled ∧ reply ≠ .done) ∨
        ∃ head n, c' = { ({ settled with head := head }.findSlot batch).1 with n := n } ∧
          (reply = .done → ({ settled with head := head }.findSlot batch).2 = true ∧
            c'.n = min c'.size (max env.pad (padUp
              (({ settled with head := head }.findSlot batch).1.cellMaxPadded env.pad)
                env.pad)))) := by
  unfold decodeSlot at h
  split at h
  · cases h
    exact .inl ⟨rfl, nofun⟩
  obtain ⟨⟨settled, status⟩, hsettled, heq⟩ := map_eq_some_iff.mp h
  refine .inr ⟨settled, status, hsettled, ?_⟩
  dsimp only at heq
  split at heq
  · cases heq
    exact .inl ⟨rfl, nofun⟩
  -- the head may be reset before the search
  obtain ⟨head, hhead⟩ : ∃ head, (if settled.used + 2 * batch.length < settled.head then
      { settled with head := 0 } else settled) = { settled with head := head } := by
    split
    · exact ⟨0, rfl⟩
    · exact ⟨settled.head, rfl⟩
  rw [hhead] at heq
  have hplain' : ({ settled with head := head } : Cache).recurrent = false :=
    (framed_update hsettled).recurrent.trans hplain
  split at heq
  next hfound =>
    rw [if_neg (by
      rw [(framed_findSlot hplain' batch).recurrent, hplain']
      exact Bool.false_ne_true)] at heq
    cases heq
    exact .inr ⟨head, _, rfl, fun _ => ⟨hfound, rfl⟩⟩
  · cases heq
    exact .inr ⟨head, _, rfl, nofun⟩

theorem framed_decodeSlot
    (hplain : c.recurrent = false) (h : c.decodeSlot env batch = some (c', reply)) :
    Framed c c' := by
  rcases decodeSlot_cases hplain h with
    ⟨rfl, -⟩ | ⟨settled, status, hsettled, ⟨rfl, -⟩ | ⟨head, n, rfl, -⟩⟩
  · exact .refl _
  · exact framed_update hsettled
  · have hsame := framed_update hsettled
    obtain ⟨⟨h₁, h₂, h₃, h₄, h₅, h₆⟩, hshapes, hdefrag⟩ :=
      framed_findSlot (c := { settled with head := head }) (hsame.recurrent.trans hplain) batch
    exact hsame.trans ⟨⟨h₁, h₂, h₃, h₄, h₅, h₆⟩, hshapes, hdefrag⟩

theorem framed_computed (n : Nat) (w : Written) : Framed c (c.computed n w) :=
  .of_shapes ⟨rfl, rfl, rfl, rfl⟩ rfl (stateShapes_mapBytes rfl) id

theorem decode_cases (h : c.decode env batch side = some (c', reply)) :
    ∃ slot slotReply, c.decodeSlot env batch = some (slot, slotReply) ∧
      ((c' = slot ∧ reply ≠ .done) ∨
        (slotReply = .done ∧ reply = .done ∧ side = none ∧ ∃ w, env.compute slot batch = .ok w ∧
          c' = slot.computed batch.length w)) := by
  unfold decode at h
  obtain ⟨⟨slot, slotReply⟩, hslot, heq⟩ := map_eq_some_iff.mp h
  refine ⟨slot, slotReply, hslot, ?_⟩
  dsimp only at heq
  split at heq
  next hdone =>
    split at heq
    · cases heq
      exact .inl ⟨rfl, fun hdone => (nomatch hdone)⟩
    · split at heq
      · cases heq
        exact .inl ⟨rfl, fun hdone => (nomatch hdone)⟩
      next w hw =>
        cases heq
        exact .inr ⟨hdone, rfl, rfl, w, hw, rfl⟩
  next hnot =>
    cases heq
    exact .inl ⟨rfl, hnot⟩

theorem framed_decode (hplain : c.recurrent = false)
    (h : c.decode env batch side = some (c', reply)) : Framed c c' := by
  obtain ⟨slot, slotReply, hslot, ⟨rfl, -⟩ | ⟨-, -, -, w, -, rfl⟩⟩ := decode_cases h
  · exact framed_decodeSlot hplain hslot
  · exact (framed_decodeSlot hplain hslot).trans (framed_computed _ w)

end Cache

/-- **A call keeps the kind of the cache and the shapes of its recurrent layers.** -/
theorem framed_call {env c c' a reply} (hplain : c.recurrent = false) (ha : a ≠ .defrag)
    (h : call env c a = some (c', reply)) : Framed c c' := by
  cases a with
  | decode batch side => exact Cache.framed_decode hplain h
  | seqRm seq p0 p1 =>
    cases h
    exact Cache.framed_seqRm seq p0 p1
  | seqCp src dst p0 p1 side => exact Cache.framed_copySequence h
  | seqKeep seq =>
    cases h
    exact Cache.framed_seqKeep seq
  | seqAdd seq p0 p1 delta side => exact Cache.framed_addPositions h
  | seqDiv seq p0 p1 d side => exact Cache.framed_dividePositions h
  | clear =>
    cases h
    exact Cache.framed_clear
  | defrag => exact absurd rfl ha
  | update =>
    unfold call at h
    obtain ⟨⟨settled, status⟩, hsettled, heq⟩ := map_eq_some_iff.mp h
    cases heq
    exact Cache.framed_update hsettled

theorem sameKind_call {env c c' a reply} (hplain : c.recurrent = false)
    (h : call env c a = some (c', reply)) : SameKind c c' := by
  by_cases ha : a = .defrag
  · subst ha
    cases h
    unfold Cache.defrag
    split
    · exact .refl _
    · exact ⟨rfl, rfl, rfl, rfl, rfl, rfl⟩
  · exact (framed_call hplain ha h).toSameKind

end ExpertStreaming.KvCache
