import ExpertStreaming.KvCache.Frame

/-! # Tokens and the invariants of the cells

A token of a sequence is a row with its position and its place in time. Two invariants say
what the cells of a cache hold: a row has a position exactly when it belongs to a sequence,
with `used` counting such rows; and in an ordered cache no sequence has two tokens of the
same order. Each operation keeps them.
-/
namespace ExpertStreaming.KvCache
open Lib List Finset

/-- A token of a sequence, as attention sees it. -/
structure Token where
  order : Int
  pos : Int
  row : Nat
  deriving DecidableEq

def Cache.Holds (c : Cache) (seq : Int) (t : Token) : Prop :=
  ∃ cell, c.cells[t.row]? = some cell ∧ 0 ≤ cell.pos ∧ seq ∈ cell.seqId ∧
    cell.chronology = t.order ∧ cell.pos = t.pos

instance (c : Cache) (seq : Int) (t : Token) : Decidable (c.Holds seq t) :=
  decidable_of_iff ((c.cells[t.row]?).any fun cell => decide (0 ≤ cell.pos ∧ seq ∈ cell.seqId ∧
      cell.chronology = t.order ∧ cell.pos = t.pos))
    (by simp only [Option.any_eq_true, decide_eq_true_eq]; exact Iff.rfl)

/-- Rows have positions exactly when they belong to sequences, and are counted. -/
structure Counted (cells : List Cell) (used : Nat) : Prop where
  taken : ∀ cell ∈ cells, 0 ≤ cell.pos ↔ cell.seqId ≠ ∅
  counted : used = cells.countP Cell.occupied

/-- The tokens of each sequence have orders, no two the same. -/
structure Chronological (cells : List Cell) : Prop where
  given : ∀ cell ∈ cells, cell.seqId ≠ ∅ → 0 ≤ cell.order
  distinct : ∀ {i j : Nat} {a b : Cell} {seq : Int}, cells[i]? = some a → cells[j]? = some b →
    i ≠ j → seq ∈ a.seqId → seq ∈ b.seqId → a.order ≠ b.order

/-- What a pass may do with a row: keep it, or take sequences from it and count a row that falls
free. -/
structure Cache.Swept.Keeps (cell : Cell) (r : Cache.Swept) : Prop where
  taken : 0 ≤ r.cell.pos ↔ r.cell.seqId ≠ ∅
  counted : r.counted = true ↔ cell.seqId ≠ ∅ ∧ r.cell.seqId = ∅
  subset : r.cell.seqId ⊆ cell.seqId
  order : r.cell.seqId ≠ ∅ → r.cell.order = cell.order

namespace Counted

variable {cells : List Cell} {used : Nat}

theorem occupied_iff (h : Counted cells used) {cell} (hmem : cell ∈ cells) :
    cell.occupied = true ↔ cell.seqId ≠ ∅ := by
  rw [Cell.occupied_iff, h.taken cell hmem, and_self_iff]

theorem sweep {c : Cache} {f : Nat → Cell → Cache.Swept} (h : Counted c.cells c.used)
    (hrow : ∀ i cell, c.cells[i]? = some cell → (f i cell).Keeps cell) :
    Counted (c.sweep f).cells (c.sweep f).used := by
  have hcount : (c.cells.mapIdx fun i cell => (f i cell).cell).countP Cell.occupied +
      (c.cells.mapIdx fun i cell => (f i cell).counted).count true =
        c.cells.countP Cell.occupied := by
    refine Cache.countP_mapIdx_sweep fun i cell hcell => ?_
    obtain ⟨htaken, hcounted, hsubset, -⟩ := hrow i cell hcell
    have hold := h.occupied_iff (mem_of_getElem? hcell)
    have hnew : (f i cell).cell.occupied = true ↔ (f i cell).cell.seqId ≠ ∅ := by
      rw [Cell.occupied_iff, htaken, and_self_iff]
    have hkept : (f i cell).cell.seqId ≠ ∅ → cell.seqId ≠ ∅ := fun hne hempty =>
      hne (subset_empty.mp (hempty ▸ hsubset))
    rw [hold, hnew, hcounted]
    tauto
  refine ⟨fun cell hmem => ?_, ?_⟩
  · obtain ⟨i, hi, rfl⟩ := mem_mapIdx.mp hmem
    exact (hrow i _ (getElem?_eq_getElem hi)).taken
  · have hused : (c.sweep f).used =
        u32Sub c.used ((c.cells.mapIdx fun i cell => (f i cell).counted).count true) := rfl
    rw [hused, u32Sub_of_le (by rw [h.counted]; omega), h.counted]
    have hcells : (c.sweep f).cells = c.cells.mapIdx fun i cell => (f i cell).cell := rfl
    rw [hcells]
    omega

theorem map {g} (h : Counted cells used) (hg : ∀ cell ∈ cells, (0 ≤ (g cell).pos ↔ 0 ≤ cell.pos) ∧
      ((g cell).seqId = ∅ ↔ cell.seqId = ∅)) : Counted (cells.map g) used := by
  refine ⟨fun cell hmem => ?_, ?_⟩
  · obtain ⟨old, hold, rfl⟩ := mem_map.mp hmem
    obtain ⟨hpos, hseq⟩ := hg old hold
    rw [hpos, h.taken old hold, ne_eq, ne_eq, hseq]
  · rw [countP_map, h.counted]
    refine countP_congr fun cell hmem => ?_
    obtain ⟨hpos, hseq⟩ := hg cell hmem
    simp only [Function.comp_apply, Cell.occupied_iff, hpos, ne_eq, hseq]

theorem set (h : Counted cells used) {i old new} (hi : cells[i]? = some old)
    (htaken : 0 ≤ new.pos ↔ new.seqId ≠ ∅) {used'}
    (hused : used' + (if old.seqId = ∅ then 0 else 1) = used + if new.seqId = ∅ then 0 else 1) :
    Counted (cells.set i new) used' := by
  obtain ⟨hlt, hget⟩ := List.getElem?_eq_some_iff.mp hi
  have hold := h.occupied_iff (mem_of_getElem? hi)
  have hnew : new.occupied = true ↔ new.seqId ≠ ∅ := by
    rw [Cell.occupied_iff, htaken, and_self_iff]
  refine ⟨fun cell hmem => ?_, ?_⟩
  · rcases mem_or_eq_of_mem_set hmem with hmem | rfl
    · exact h.taken cell hmem
    · exact htaken
  · rw [countP_set hlt, hget]
    have hpos : old.seqId ≠ ∅ → 0 < cells.countP Cell.occupied := fun hne =>
      countP_pos_iff.mpr ⟨old, mem_of_getElem? hi, hold.mpr hne⟩
    have hcounted := h.counted
    by_cases ho : old.seqId = ∅ <;> by_cases hn : new.seqId = ∅ <;>
      simp only [hold, hnew, ho, hn, ne_eq, not_true_eq_false, not_false_eq_true, if_true,
        if_false, forall_const] at hused hpos ⊢ <;> omega

theorem of_rows {cells'} (h : Counted cells used) (hlen : cells'.length = cells.length)
    (hrow : ∀ {i : Nat} {a b : Cell}, cells[i]? = some a → cells'[i]? = some b →
      (0 ≤ b.pos ↔ 0 ≤ a.pos) ∧ (b.seqId = ∅ ↔ a.seqId = ∅)) : Counted cells' used := by
  have hocc : cells'.map Cell.occupied = cells.map Cell.occupied := by
    refine ext_getElem (by simp [hlen]) fun i hi hi' => ?_
    rw [length_map] at hi hi'
    rw [getElem_map, getElem_map]
    obtain ⟨hpos, hseq⟩ := hrow (getElem?_eq_getElem hi') (getElem?_eq_getElem hi)
    rw [Bool.eq_iff_iff, Cell.occupied_iff, Cell.occupied_iff, hpos, ne_eq, ne_eq, hseq]
  refine ⟨fun b hmem => ?_, ?_⟩
  · obtain ⟨i, hi⟩ := mem_iff_getElem?.mp hmem
    have hlt : i < cells.length := hlen ▸ (List.getElem?_eq_some_iff.mp hi).1
    have ha := getElem?_eq_getElem hlt
    obtain ⟨hpos, hseq⟩ := hrow ha hi
    rw [hpos, h.taken _ (mem_of_getElem? ha), ne_eq, ne_eq, hseq]
  · have hcount : cells'.countP Cell.occupied = cells.countP Cell.occupied := by
      have := congrArg (countP id) hocc
      rwa [countP_map, countP_map, Function.id_comp] at this
    rw [hcount]
    exact h.counted

end Counted

namespace Chronological

variable {cells cells' : List Cell}

/-- **Tokens keep their orders when rows move**, each with some of its sequences. -/
theorem transfer (h : Chronological cells) (σ : Nat → Nat)
    (hfrom : ∀ {i : Nat} {b : Cell}, cells'[i]? = some b → b.seqId ≠ ∅ →
      ∃ a, cells[σ i]? = some a ∧ b.seqId ⊆ a.seqId ∧ b.order = a.order)
    (hapart : ∀ {i j : Nat} {a b : Cell}, cells'[i]? = some a → cells'[j]? = some b → i ≠ j → σ i = σ j →
      Disjoint a.seqId b.seqId) : Chronological cells' := by
  refine ⟨fun b hmem hne => ?_, fun {i j a b seq} hi hj hij ha hb => ?_⟩
  · obtain ⟨i, hi⟩ := mem_iff_getElem?.mp hmem
    obtain ⟨a, ha, hsub, horder⟩ := hfrom hi hne
    rw [horder]
    exact h.given a (mem_of_getElem? ha) fun hempty =>
      hne (subset_empty.mp (hempty ▸ hsub))
  · obtain ⟨a₀, ha₀, hasub, haorder⟩ := hfrom hi (ne_empty_of_mem ha)
    obtain ⟨b₀, hb₀, hbsub, hborder⟩ := hfrom hj (ne_empty_of_mem hb)
    have hrows : σ i ≠ σ j := fun heq =>
      disjoint_left.mp (hapart hi hj hij heq) ha hb
    rw [haorder, hborder]
    exact h.distinct ha₀ hb₀ hrows (hasub ha) (hbsub hb)

theorem of_rows (h : Chronological cells)
    (hfrom : ∀ {i : Nat} {b : Cell}, cells'[i]? = some b → b.seqId ≠ ∅ →
      ∃ a, cells[i]? = some a ∧ b.seqId ⊆ a.seqId ∧ b.order = a.order) : Chronological cells' :=
  h.transfer id hfrom fun _ _ hij heq => absurd heq hij

theorem sweep {c : Cache} {f : Nat → Cell → Cache.Swept} (h : Chronological c.cells)
    (hrow : ∀ i cell, c.cells[i]? = some cell → (f i cell).Keeps cell) :
    Chronological (c.sweep f).cells := by
  refine h.of_rows fun {i b} hi hne => ?_
  rw [Cache.getElem?_sweep, Option.map_eq_some_iff] at hi
  obtain ⟨a, ha, rfl⟩ := hi
  exact ⟨a, ha, (hrow i a ha).subset, (hrow i a ha).order hne⟩

theorem map {g} (h : Chronological cells)
    (hg : ∀ cell, (g cell).seqId ⊆ cell.seqId ∧ (g cell).order = cell.order) :
    Chronological (cells.map g) := by
  refine h.of_rows fun {i b} hi hne => ?_
  rw [getElem?_map, Option.map_eq_some_iff] at hi
  obtain ⟨a, ha, rfl⟩ := hi
  exact ⟨a, ha, hg a⟩

theorem of_holds {c : Cache}
    (hgiven : ∀ cell ∈ c.cells, cell.seqId ≠ ∅ → 0 ≤ cell.pos ∧ 0 ≤ cell.order)
    (h : ∀ {seq t t'}, c.Holds seq t → c.Holds seq t' → t.order = t'.order → t = t') :
    Chronological c.cells := by
  refine ⟨fun cell hmem hne => (hgiven cell hmem hne).2, fun {i j a b seq} hi hj hij ha hb => ?_⟩
  obtain ⟨hpos, horder⟩ := hgiven a (mem_of_getElem? hi) (ne_empty_of_mem ha)
  obtain ⟨hpos', horder'⟩ := hgiven b (mem_of_getElem? hj) (ne_empty_of_mem hb)
  intro heq
  have hat : c.Holds seq ⟨a.order, a.pos, i⟩ := ⟨a, hi, hpos, ha, if_pos horder, rfl⟩
  have hbt : c.Holds seq ⟨b.order, b.pos, j⟩ := ⟨b, hj, hpos', hb, if_pos horder', rfl⟩
  exact hij (congrArg Token.row (h hat hbt heq))

end Chronological

/-! ## Defragmentation -/

theorem getElem?_of_isEmpty_false {cells : List Cell} {i : Nat}
    (h : (cells.getD i {}).isEmpty = false) : cells[i]? = some (cells.getD i {}) := by
  have hi := getD_of_isEmpty_false h
  rw [getD_eq_getElem _ _ hi, getElem?_eq_getElem hi]

theorem Compacts.counted {cells now : List Cell} {used : Nat} (h : Compacts cells now)
    (hc : Counted cells used) : Counted now used := by
  induction h with
  | refl => exact hc
  | @move now i j _ hfull hempty hlt ih =>
    have hlen := getD_of_isEmpty_false hfull
    have hi := getElem?_of_isEmpty_false hfull
    have hj : now[j]? = some (now.getD j {}) := by
      rw [getD_eq_getElem _ _ (Nat.lt_trans hlt hlen),
        getElem?_eq_getElem (Nat.lt_trans hlt hlen)]
    unfold moveCell
    generalize now.getD i {} = a at hi hfull ⊢
    have hnotempty := Cell.isEmpty_eq_false.mp hfull
    have hfirst : Counted (now.set j { a with src := (now.getD j {}).src }) (used + 1) := by
      refine ih.set hj ?_ ?_
      · exact ih.taken a (mem_of_getElem? hi)
      · rw [if_pos (Cell.isEmpty_iff.mp hempty), if_neg hnotempty]
    refine hfirst.set (by rw [getElem?_set_ne (by omega)]; exact hi) ?_ ?_
    · exact ⟨fun h => absurd h (show ¬ (0 : Int) ≤ -1 by decide), fun h => absurd rfl h⟩
    · rw [if_neg hnotempty]
      rfl

theorem Compacts.chronological {cells now : List Cell} (h : Compacts cells now)
    (hc : Chronological cells) : Chronological now := by
  induction h with
  | refl => exact hc
  | @move now i j _ hfull hempty hlt ih =>
    have hlen := getD_of_isEmpty_false hfull
    -- the token of row `j` comes from row `i`, and row `i` has none
    refine ih.transfer (fun row => if row = j then i else row) ?_ ?_
    · intro row b hrow hne
      have hb : (moveCell now i j).getD row {} = b := by
        rw [getD_eq_getElem?_getD, hrow]
        rfl
      rw [getD_moveCell hlen hlt] at hb
      by_cases hri : row = i
      · rw [if_pos hri] at hb
        exact absurd (congrArg Cell.seqId hb).symm hne
      · rw [if_neg hri] at hb
        by_cases hrj : row = j
        · rw [if_pos hrj] at hb ⊢
          exact ⟨_, getElem?_of_isEmpty_false hfull, hb ▸ Finset.Subset.refl _, hb ▸ rfl⟩
        · rw [if_neg hrj] at hb ⊢
          have hlt' : row < now.length := by
            obtain ⟨hlt', -⟩ := List.getElem?_eq_some_iff.mp hrow
            rw [length_moveCell] at hlt'
            exact hlt'
          refine ⟨b, ?_, Finset.Subset.refl _, rfl⟩
          rw [← hb, getD_eq_getElem _ _ hlt', getElem?_eq_getElem hlt']
    · intro r r' a b hr hr' hne heq
      -- only rows `i` and `j` share an origin, and row `i` is empty
      have hempty : ∀ {x : Cell}, (moveCell now i j)[i]? = some x → x.seqId = ∅ := by
        intro x hx
        have hx' : (moveCell now i j).getD i {} = x := by
          rw [getD_eq_getElem?_getD, hx]
          rfl
        rw [getD_moveCell hlen hlt, if_pos rfl] at hx'
        exact (congrArg Cell.seqId hx').symm
      by_cases hj : r = j
      · by_cases hj' : r' = j
        · exact absurd (hj.trans hj'.symm) hne
        · rw [if_pos hj, if_neg hj'] at heq
          rw [← heq] at hr'
          rw [hempty hr']
          exact disjoint_empty_right _
      · by_cases hj' : r' = j
        · rw [if_neg hj, if_pos hj'] at heq
          rw [heq] at hr
          rw [hempty hr]
          exact disjoint_empty_left _
        · simp only [hj, hj', if_false] at heq
          exact absurd heq hne

end ExpertStreaming.KvCache
