import ExpertStreaming.KvCache.Checkpoint

/-! # What a call leaves below a position

A checkpoint counts on the tokens of its sequence that lie below the position it was made at. For
every call this file says when they stay: in their rows, with their positions and their orders.
-/
namespace ExpertStreaming.KvCache
open Lib List Finset

def Cell.below (seq bound : Int) (cell : Cell) : Option (Int × Int) :=
  if seq ∈ cell.seqId ∧ 0 ≤ cell.pos ∧ cell.pos < bound then some (cell.order, cell.pos) else none

/-- **The tokens of a sequence below a bound are in the same rows as before.** -/
structure Retains (seq bound : Int) (cells cells' : List Cell) : Prop where
  rows : ∀ i : Nat,
    cells'[i]?.bind (Cell.below seq bound) = cells[i]?.bind (Cell.below seq bound)

namespace Cell

variable {seq bound : Int} {a b : Cell}

theorem below_congr (hmem : seq ∈ b.seqId ↔ seq ∈ a.seqId)
    (hsame : seq ∈ a.seqId → b.pos = a.pos ∧ b.order = a.order) :
    b.below seq bound = a.below seq bound := by
  unfold below
  by_cases h : seq ∈ a.seqId
  · obtain ⟨hpos, horder⟩ := hsame h
    simp [hmem, h, hpos, horder]
  · simp [hmem, h]

theorem below_none (h : seq ∈ a.seqId → 0 ≤ a.pos → bound ≤ a.pos) :
    a.below seq bound = none := by
  unfold below
  refine if_neg fun hbelow => ?_
  have := h hbelow.1 hbelow.2.1
  omega

end Cell

namespace Retains

variable {seq bound : Int} {cells cells' cells'' : List Cell}

theorem refl (cells : List Cell) : Retains seq bound cells cells := ⟨fun _ => rfl⟩

theorem trans (h : Retains seq bound cells cells') (h' : Retains seq bound cells' cells'') :
    Retains seq bound cells cells'' := ⟨fun i => (h'.rows i).trans (h.rows i)⟩

theorem of_rows {f : Nat → Cell → Cell} (hcells : ∀ i : Nat, cells'[i]? = cells[i]?.map (f i))
    (h : ∀ i cell, cells[i]? = some cell →
      (f i cell).below seq bound = cell.below seq bound) : Retains seq bound cells cells' := by
  refine ⟨fun i => ?_⟩
  rw [hcells]
  cases hi : cells[i]? with
  | none => rfl
  | some cell => exact h i cell hi

theorem map {f : Cell → Cell}
    (h : ∀ cell ∈ cells, (f cell).below seq bound = cell.below seq bound) :
    Retains seq bound cells (cells.map f) :=
  of_rows (f := fun _ => f) (fun _ => getElem?_map)
    fun _ cell hi => h cell (mem_of_getElem? hi)

theorem stores_iff_below {c : Cache} {t : Token} (ht : t.pos < bound) :
    c.Stores seq t ↔ c.cells[t.row]?.bind (Cell.below seq bound) = some (t.order, t.pos) := by
  constructor
  · rintro ⟨cell, hcell, hpos, hmem, horder, hsame⟩
    rw [hcell, Option.bind_some, Cell.below, if_pos ⟨hmem, hpos, hsame ▸ ht⟩, horder, hsame]
  · intro h
    obtain ⟨cell, hcell, hbelow⟩ := Option.bind_eq_some_iff.mp h
    unfold Cell.below at hbelow
    split at hbelow
    next hheld =>
      obtain ⟨horder, hpos⟩ := Prod.mk.inj (Option.some.inj hbelow)
      exact ⟨cell, hcell, hheld.2.1, hheld.1, horder, hpos⟩
    · cases hbelow

theorem stores_iff {c c' : Cache} (h : Retains seq bound c.cells c'.cells) {t : Token}
    (ht : t.pos < bound) : c'.Stores seq t ↔ c.Stores seq t := by
  rw [stores_iff_below ht, stores_iff_below ht, h.rows]

end Retains

namespace Cache

variable {seq bound : Int} {c c' : Cache}

theorem retains_sweep {f : Nat → Cell → Swept}
    (h : ∀ i cell, c.cells[i]? = some cell →
      (f i cell).cell.below seq bound = cell.below seq bound) :
    Retains seq bound c.cells (c.sweep f).cells :=
  .of_rows (getElem?_sweep c f) h

/-! ## Removing and copying -/

theorem lowest_ge (p0 : Int) : p0 ≤ lowest p0 := by
  unfold lowest
  split <;> omega

variable {q p0 p1 src dst delta : Int} {env : Env} {side : Option String} {reply : Reply}
  {batch : List BatchToken}

theorem retains_seqRm (h : (0 ≤ q ∧ q ≠ seq) ∨ bound ≤ p0 ∨ p1 = 0) :
    Retains seq bound c.cells (c.seqRm q p0 p1).1.cells := by
  unfold seqRm
  split
  · exact .refl _
  refine retains_sweep (f := c.rmRow q p0 p1) fun i cell _ => ?_
  unfold rmRow
  split
  next hrow =>
    rcases h with ⟨hq, hother⟩ | hbehind
    · have hwithout : cell.without q = cell.seqId.erase q := if_neg (Int.not_lt.mpr hq)
      have hmem : seq ∈ cell.without q ↔ seq ∈ cell.seqId := by
        simp [hwithout, Ne.symm hother]
      split
      next hnone =>
        refine Cell.below_congr ?_ fun hseq => ?_
        · rw [← hmem, hnone]
          rfl
        · exact absurd (hmem.mpr hseq) (hnone ▸ notMem_empty _)
      · exact Cell.below_congr hmem fun _ => ⟨rfl, rfl⟩
    · -- the row lies behind the bound
      have habove : bound ≤ cell.pos := by
        rcases hbehind with hp0 | rfl
        · exact Int.le_trans hp0 (Int.le_trans (lowest_ge p0) hrow.1.1)
        · exact absurd (Int.lt_of_le_of_lt hrow.1.nonneg hrow.1.2) (by decide)
      rw [Cell.below_none fun _ _ => habove]
      split
      · exact Cell.below_none fun hmem _ => absurd hmem (notMem_empty _)
      · exact Cell.below_none fun _ _ => habove
  · rfl

theorem retains_seqKeep : Retains seq bound c.cells (c.seqKeep seq).cells := by
  refine retains_sweep (f := c.keepRow seq) fun i cell _ => ?_
  unfold keepRow
  split
  next hmem => exact Cell.below_congr (by simp [hmem]) fun _ => ⟨rfl, rfl⟩
  next hnot =>
    refine Cell.below_congr ?_ fun hmem => absurd hmem hnot
    exact iff_of_false (notMem_empty _) hnot

theorem retains_replaceOrders (h : dst ≠ seq) :
    Retains seq bound c.cells (c.replaceOrders src dst p0 p1).cells := by
  unfold replaceOrders
  split
  · refine retains_sweep fun i cell _ => ?_
    unfold replaceRow
    dsimp only
    have hmem : seq ∈ cell.seqId.erase dst ↔ seq ∈ cell.seqId := by simp [Ne.symm h]
    split
    · split
      next hnone =>
        refine Cell.below_congr ?_ fun hseq => ?_
        · rw [← hmem, hnone]
        · exact absurd (hmem.mpr hseq) (hnone ▸ notMem_empty _)
      · exact Cell.below_congr hmem fun _ => ⟨rfl, rfl⟩
    · rfl
  · exact .refl _

theorem retains_shareRows (h : dst ≠ seq) :
    Retains seq bound c.cells (c.shareRows src dst p0 p1).cells := by
  refine .map fun cell _ => ?_
  split
  · exact Cell.below_congr (by simp [Ne.symm h]) fun _ => ⟨rfl, rfl⟩
  · rfl

theorem retains_recordCopy (src dst : Int) :
    Retains seq bound c.cells (c.recordCopy src dst).cells := by
  refine ⟨fun i => ?_⟩
  unfold recordCopy
  dsimp only
  rw [getElem?_modify]
  cases c.cells[i]? with
  | none => rfl
  | some cell =>
    rw [Option.map_eq_map, Option.map_some, Option.bind_some, Option.bind_some]
    split <;> rfl

theorem retains_seqCp (hplain : c.recurrent = false) (hdst : dst ≠ seq)
    (h : c.seqCp src dst p0 p1 = some c') : Retains seq bound c.cells c'.cells := by
  unfold seqCp at h
  rw [if_neg (by simp [hplain])] at h
  split at h
  · split at h
    · cases h
      exact (retains_recordCopy src dst).trans (retains_shareRows hdst)
    · cases h
  · cases h
    exact retains_shareRows hdst

theorem retains_copySequence (hplain : c.recurrent = false) (hdst : dst ≠ seq)
    (h : c.copySequence env src dst p0 p1 side = some (c', reply)) :
    Retains seq bound c.cells c'.cells := by
  rcases copySequence_cases h with ⟨rfl, -⟩ | ⟨-, -, hcopied⟩
  · exact .refl _
  · refine (retains_replaceOrders hdst).trans (retains_seqCp ?_ hdst hcopied)
    exact (framed_replaceOrders src dst p0 p1).recurrent.trans hplain

/-! ## Changing positions -/

/-- **A change of positions that a sequence does not notice below a bound**: what it moves of the
sequence lies behind the bound and stays there, or is dropped. -/
def MovesBehind (c : Cache) (q p0 p1 : Int) (next : Int → Option Int) (seq bound : Int) : Prop :=
  ∀ cell ∈ c.cells, seq ∈ cell.seqId → c.transforms q p0 p1 cell = true →
    (c.ordered = true → History.Concerns q seq) →
    bound ≤ cell.pos ∧ ∀ pos ∈ next cell.pos, bound ≤ pos

instance (c : Cache) (q p0 p1 : Int) (next : Int → Option Int) (seq bound : Int) :
    Decidable (c.MovesBehind q p0 p1 next seq bound) :=
  inferInstanceAs (Decidable (∀ cell ∈ c.cells, _))

/-- The position `seq_add` gives a token, unless it drops it. -/
def shifted (delta pos : Int) : Option Int := if pos + delta < 0 then none else some (pos + delta)

def divided (d pos : Int) : Option Int := some (pos.tdiv d)

theorem retains_seqAdd (hplain : c.recurrent = false)
    (ho : c.ordered = false) (hmoves : c.MovesBehind q p0 p1 (shifted delta) seq bound)
    (h : c.seqAdd q p0 p1 delta = some c') : Retains seq bound c.cells c'.cells := by
  rcases seqAdd_cases hplain h with rfl | ⟨shift, head, rfl⟩
  · exact .refl _
  refine retains_sweep (f := c.addRow q p0 p1 delta) fun i cell hi => ?_
  unfold addRow
  split
  next hrow =>
    have hmoved := fun hmem => hmoves cell (mem_of_getElem? hi) hmem hrow (by simp [ho])
    rw [Cell.below_none (a := cell) fun hmem _ => (hmoved hmem).1]
    split
    · exact Cell.below_none fun hmem _ => absurd hmem (notMem_empty _)
    next hnonneg =>
      exact Cell.below_none fun hmem _ => (hmoved hmem).2 _ (by simp [shifted, hnonneg])
  · rfl

theorem retains_seqDiv {d} (hplain : c.recurrent = false) (ho : c.ordered = false)
    (hmoves : c.MovesBehind q p0 p1 (divided d) seq bound) (h : c.seqDiv q p0 p1 d = some c') :
    Retains seq bound c.cells c'.cells := by
  rcases seqDiv_cases hplain h with rfl | ⟨shift, rfl⟩
  · exact .refl _
  refine .map fun cell hcell => ?_
  split
  next hrow =>
    have hmoved := fun hmem => hmoves cell hcell hmem hrow (by simp [ho])
    rw [Cell.below_none (a := cell) fun hmem _ => (hmoved hmem).1]
    exact Cell.below_none fun hmem _ => (hmoved hmem).2 _ rfl
  · rfl

theorem transforms_of_touches {divisor cell} (ho : c.ordered = true)
    (h : Transform.Touches ⟨q, max 0 p0, highest p1, delta, divisor⟩ cell) :
    c.transforms q p0 p1 cell = true := by
  obtain ⟨hlow, hhigh, hseq⟩ := h
  have hrange : InRange p0 p1 cell.pos := by
    refine ⟨?_, hhigh⟩
    dsimp only at hlow
    unfold lowest
    split <;> omega
  unfold transforms
  simp only [ho, Bool.true_and, Bool.and_eq_true, Bool.or_eq_true, decide_eq_true_eq]
  exact ⟨hseq, hrange⟩

/-- A token below the bound stays as it is. -/
theorem Transformed.stays_below {t : Transform} {cells : List Cell} {cell : Cell}
    (hmoves : History.Concerns t.seq seq → ∀ cell ∈ cells, seq ∈ cell.seqId → t.Touches cell →
      bound ≤ cell.pos ∧ (0 ≤ t.next cell.pos → bound ≤ t.next cell.pos))
    (hcell : cell ∈ cells) (hmem : seq ∈ cell.seqId) (hlt : cell.pos < bound) :
    (t.after cell).pos = cell.pos ∧ (t.after cell).order = cell.order ∧
      seq ∈ (t.after cell).seqId := by
  by_cases hseq : History.Concerns t.seq seq
  · have hstay : t.fate cell = .stay := by
      refine if_pos (.inl fun htouches => ?_)
      have := (hmoves hseq cell hcell hmem htouches).1
      omega
    unfold Transform.after
    rw [hstay]
    exact ⟨rfl, rfl, hmem⟩
  · obtain ⟨hmem', horder, hpos⟩ := Transform.after_of_other hseq hmem
    exact ⟨hpos, horder, hmem'⟩

theorem Transformed.retains {t copies} (h : Transformed t c.cells c'.cells copies)
    (hfirst : 0 ≤ t.first)
    (hmoves : History.Concerns t.seq seq → ∀ cell ∈ c.cells, seq ∈ cell.seqId → t.Touches cell →
      bound ≤ cell.pos ∧ (0 ≤ t.next cell.pos → bound ≤ t.next cell.pos)) :
    Retains seq bound c.cells c'.cells := by
  -- a token found below the bound was there before
  have hback : ∀ {i : Nat} {b : Cell}, c'.cells[i]? = some b → seq ∈ b.seqId → 0 ≤ b.pos →
      b.pos < bound → ∃ a, c.cells[i]? = some a ∧ seq ∈ a.seqId ∧ a.pos = b.pos ∧
        a.order = b.order := by
    intro i b hb hmem hpos hlt
    rcases h.origin hb (ne_empty_of_mem hmem) with
      ⟨a, ha, rfl, -⟩ | ⟨row, a, src, -, ha, hsplit, rfl⟩
    · have hmem' := (Transformed.after_subset a).1 hmem
      have hold := Transform.nonneg_of_after hfirst hpos
      by_cases hseq : History.Concerns t.seq seq
      · obtain ⟨-, -, horder, hposition⟩ := Transform.after_of_concerned hseq hmem hold
        refine ⟨a, ha, hmem', ?_, horder.symm⟩
        unfold Transform.position at hposition
        split at hposition
        next hin =>
          split at hposition
          · cases hposition
          next hnonneg =>
          have htouches : t.Touches a := by
            refine ⟨hin.1, hin.2, ?_⟩
            rcases hseq with hneg | rfl
            · exact .inl hneg
            · exact .inr hmem'
          have hbound := (hmoves hseq a (mem_of_getElem? ha) hmem' htouches).2
            (Int.not_lt.mp hnonneg)
          have hnow := Option.some.inj hposition
          omega
        · exact Option.some.inj hposition
      · obtain ⟨-, horder, hsame⟩ := Transform.after_of_other hseq hmem'
        exact ⟨a, ha, hmem', hsame.symm, horder.symm⟩
    · obtain ⟨htouches, hnonneg, hmem', -⟩ := Transform.fate_split hsplit
      obtain rfl := Finset.mem_singleton.mp hmem
      have hbound := (hmoves (.inr rfl) a (mem_of_getElem? ha) hmem' htouches).2 hnonneg
      exact absurd hlt (Int.not_lt.mpr hbound)
  refine ⟨fun i => Option.ext fun token => ?_⟩
  obtain ⟨order, pos⟩ := token
  simp only [Option.bind_eq_some_iff, Cell.below, Option.ite_none_right_eq_some,
    Option.some.injEq, Prod.mk.injEq]
  constructor
  · rintro ⟨b, hb, ⟨hmem, hpos, hlt⟩, rfl, rfl⟩
    obtain ⟨a, ha, hmem', hsame, horder⟩ := hback hb hmem hpos hlt
    exact ⟨a, ha, ⟨hmem', hsame ▸ hpos, hsame ▸ hlt⟩, horder, hsame⟩
  · rintro ⟨a, ha, ⟨hmem, hpos, hlt⟩, rfl, rfl⟩
    obtain ⟨hsame, horder, hmem'⟩ := Transformed.stays_below hmoves (mem_of_getElem? ha) hmem hlt
    refine ⟨t.after a, h.done ha (Cell.not_free_of_mem hmem), ⟨hmem', ?_, ?_⟩, horder, hsame⟩
    · exact hsame.symm ▸ hpos
    · exact hsame.symm ▸ hlt

theorem retains_transformPositions {divisor next} (ho : c.ordered = true)
    (hmoves : c.MovesBehind q p0 p1 next seq bound)
    (hnext : ∀ pos, 0 ≤ Transform.next ⟨q, max 0 p0, highest p1, delta, divisor⟩ pos →
      next pos = some (Transform.next ⟨q, max 0 p0, highest p1, delta, divisor⟩ pos)) :
    Retains seq bound c.cells
      (c.transformPositions env q p0 p1 delta divisor side).1.cells := by
  rcases transformPositions_outcome env c q p0 p1 delta divisor side with
    ⟨message, heq⟩ | ⟨heq, -⟩ | ⟨plan, ⟨-, hplan⟩, -, heq⟩
  · rw [heq]
    exact .refl _
  · rw [heq]
    exact .refl _
  · rw [heq]
    have hdone : Transformed _ c.cells (c.applyPlan env plan).cells plan.copies :=
      (Planned.all (le_max_left _ _) hplan).transformed
    refine hdone.retains (le_max_left _ _) fun hseq cell hcell hmem htouches => ?_
    obtain ⟨hpos, hmoved⟩ := hmoves cell hcell hmem (transforms_of_touches ho htouches)
      fun _ => hseq
    exact ⟨hpos, fun hnonneg => hmoved _ (hnext _ hnonneg)⟩

theorem retains_addPositions (hcounted : c.Accounted)
    (hmoves : c.MovesBehind q p0 p1 (shifted delta) seq bound)
    (h : c.addPositions env q p0 p1 delta side = some (c', reply)) :
    Retains seq bound c.cells c'.cells := by
  rcases addPositions_cases h with rfl | ⟨ho, rfl⟩ | ⟨ho, -, -, hmoved⟩
  · exact .refl _
  · refine retains_transformPositions ho hmoves fun pos hnonneg => ?_
    rw [Transform.next, if_pos rfl] at hnonneg ⊢
    exact if_neg (Int.not_lt.mpr hnonneg)
  · exact retains_seqAdd hcounted.plain ho hmoves hmoved

theorem retains_dividePositions {d} (hcounted : c.Accounted)
    (hmoves : c.MovesBehind q p0 p1 (divided d) seq bound)
    (h : c.dividePositions env q p0 p1 d side = some (c', reply)) :
    Retains seq bound c.cells c'.cells := by
  rcases dividePositions_cases h with rfl | ⟨hd, ho, rfl⟩ | ⟨ho, -, -, hmoved⟩
  · exact .refl _
  · refine retains_transformPositions ho hmoves fun pos _ => ?_
    rw [Transform.next, if_neg hd]
    rfl
  · exact retains_seqDiv hcounted.plain ho hmoves hmoved

/-! ## Decoding -/

theorem retains_settleCopies (h : c.settleCopies = some c') :
    Retains seq bound c.cells c'.cells := by
  unfold settleCopies applyCopies at h
  split at h
  · split at h
    · cases h
      exact .of_rows (f := fun i cell => { cell with src := i })
        (fun i => getElem?_mapIdx) fun _ _ _ => rfl
    · cases h
  · cases h
    exact .refl _

theorem retains_update {g status} (hdefrag : c.doDefrag = false)
    (h : c.update g = some (c', status)) : Retains seq bound c.cells c'.cells := by
  rcases update_cases h with ⟨rfl, -⟩ | ⟨shifted, copied, hshift, hframe, hcopied, hsettled, -⟩
  · exact .refl _
  have hshifted : Retains seq bound c.cells shifted.cells := by
    rcases hshift with rfl | rfl
    · exact .refl _
    · exact .map fun _ _ => rfl
  obtain rfl := settleDefrag_still ((framed_settleCopies hcopied).defrag (hframe.defrag hdefrag))
    hsettled
  exact hshifted.trans (retains_settleCopies hcopied)

theorem retains_placeBatch {ordered last row used cells} (h : Counted cells used)
    (hbehind : ∀ token ∈ batch, seq ∈ token.seqs → bound ≤ token.pos)
    (hfits : row + batch.length ≤ cells.length)
    (hfree : ∀ i < batch.length, (cells.getD (row + i) {}).pos < 0) :
    Retains seq bound cells (placeBatch ordered last row batch cells) := by
  refine ⟨fun i => ?_⟩
  by_cases hi : i < row ∨ row + batch.length ≤ i
  · rw [placeBatch_beside hi]
  obtain ⟨k, rfl⟩ := Nat.exists_eq_add_of_le (show row ≤ i by omega)
  have hk : k < batch.length := by omega
  obtain ⟨order, hplaced⟩ := placeBatch_row ordered last
    (getElem?_eq_getElem hk) (show row + k < cells.length by omega)
  obtain ⟨hrow, hempty⟩ := empty_of_free h (by omega) (hfree k hk)
  rw [hplaced, hrow, Option.bind_some, Option.bind_some,
    Cell.below_none (a := cells.getD (row + k) {}) fun hmem _ =>
      absurd hmem (by rw [hempty]; exact notMem_empty _)]
  refine Cell.below_none fun hmem _ => hbehind batch[k] (getElem_mem hk) ?_
  have hmem : seq ∈ (cells.getD (row + k) {}).seqId ∪ batch[k].seqs.toFinset := hmem
  rwa [hempty, empty_union, mem_toFinset] at hmem

theorem retains_findSlot (hcounted : c.Accounted)
    (hbehind : ∀ token ∈ batch, seq ∈ token.seqs → bound ≤ token.pos) :
    Retains seq bound c.cells (c.findSlot batch).1.cells := by
  rcases findSlot_cases hcounted.plain batch with ⟨head, heq⟩ | ⟨head, hfits, hfree, -, heq⟩
  · rw [heq]
    exact .refl _
  · rw [heq]
    exact retains_placeBatch hcounted.counted hbehind hfits hfree

theorem retains_decodeSlot (hcounted : c.Accounted) (hdefrag : c.doDefrag = false)
    (hbehind : ∀ token ∈ batch, seq ∈ token.seqs → bound ≤ token.pos)
    (h : c.decodeSlot env batch = some (c', reply)) : Retains seq bound c.cells c'.cells := by
  rcases decodeSlot_cases hcounted.plain h with ⟨rfl, -⟩ | ⟨settled, status, hsettled, hslot⟩
  · exact .refl _
  refine (retains_update hdefrag hsettled).trans ?_
  rcases hslot with ⟨rfl, -⟩ | ⟨head, n, rfl, -⟩
  · exact .refl _
  · have haccounted := (preserves_update hsettled).accounted hcounted
    exact retains_findSlot (c := { settled with head := head })
      ⟨haccounted.plain, haccounted.small, haccounted.counted⟩ hbehind

theorem retains_decode (hcounted : c.Accounted) (hdefrag : c.doDefrag = false)
    (hbehind : ∀ token ∈ batch, seq ∈ token.seqs → bound ≤ token.pos)
    (h : c.decode env batch side = some (c', reply)) : Retains seq bound c.cells c'.cells := by
  obtain ⟨slot, slotReply, hslot, ⟨rfl, -⟩ | ⟨-, -, -, w, -, rfl⟩⟩ := decode_cases h
  · exact retains_decodeSlot hcounted hdefrag hbehind hslot
  · show Retains seq bound c.cells slot.cells
    exact retains_decodeSlot hcounted hdefrag hbehind hslot

end Cache

end ExpertStreaming.KvCache
