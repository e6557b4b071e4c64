import ExpertStreaming.KvCache.Decoding

/-! # Changing positions in an ordered cache

What becomes of a row when positions are changed depends on its own cell: it stays, moves,
loses the sequence, or is split, when other sequences share it. A split takes a free row, so
the plan is built row by row; the invariant says what the cells would be if the changes
collected so far were put in place.
-/
namespace ExpertStreaming.KvCache
open Lib Option Finset

/-- A row that `find_slot` may take and that no sequence names. -/
def Cell.Free (cell : Cell) : Prop := cell.pos < 0 ∧ cell.seqId = ∅

/-- A row at a position: what `used` is to count. -/
def Cell.held (cell : Cell) : Bool := 0 ≤ cell.pos

theorem Cell.not_free_of_mem {cell : Cell} {seq : Int} (h : seq ∈ cell.seqId) : ¬ cell.Free :=
  fun hfree => ne_empty_of_mem h hfree.2

theorem Cell.not_free_of_pos {cell : Cell} (h : 0 ≤ cell.pos) : ¬ cell.Free :=
  fun hfree => Int.not_lt.mpr h hfree.1

namespace Cache

/-- What happens to a row. -/
inductive Fate where
  | stay
  | drop
  | split
  | move
  deriving DecidableEq

namespace Transform

variable (t : Transform)

def Touches (cell : Cell) : Prop :=
  t.first ≤ cell.pos ∧ cell.pos < t.last ∧ (t.seq < 0 ∨ t.seq ∈ cell.seqId)

instance (cell : Cell) : Decidable (t.Touches cell) := inferInstanceAs (Decidable (_ ∧ _ ∧ _))

def fate (cell : Cell) : Fate :=
  if ¬ t.Touches cell ∨ t.next cell.pos = cell.pos then .stay
  else if t.next cell.pos < 0 then .drop
  else if 0 ≤ t.seq ∧ 1 < cell.seqId.card then .split
  else .move

def moved (cell : Cell) : Cell :=
  { cell with pos := t.next cell.pos, delta := cell.delta + t.next cell.pos - cell.pos }

def splitOff (cell : Cell) (src : Nat) : Cell := { t.moved cell with seqId := {t.seq}, src := src }

def after (cell : Cell) : Cell :=
  match t.fate cell with
  | .stay => cell
  | .drop => t.dropped cell
  | .split => { cell with seqId := cell.seqId.erase t.seq }
  | .move => t.moved cell

inductive PlansRow (cells : List Cell) (row : Nat) (plan : Plan) : Plan → Prop
  | stay (h : t.fate (cells.getD row {}) = .stay) : PlansRow cells row plan plan
  | drop (h : t.fate (cells.getD row {}) = .drop) :
      PlansRow cells row plan
        { plan with
          changes := plan.changes ++ [(row, t.dropped (cells.getD row {}))]
          usedDelta := if (t.dropped (cells.getD row {})).seqId = ∅ then plan.usedDelta - 1
            else plan.usedDelta }
  | split {destination : Nat} {free : List Nat} (h : t.fate (cells.getD row {}) = .split)
      (hfree : plan.freeRows = destination :: free) :
      PlansRow cells row plan
        { changes := plan.changes ++
            [(destination, t.splitOff (cells.getD row {}) (cells.getD destination {}).src),
             (row, { cells.getD row {} with seqId := (cells.getD row {}).seqId.erase t.seq })]
          copies := plan.copies ++ [(row, destination)]
          freeRows := free
          usedDelta := plan.usedDelta + 1 }
  | move (h : t.fate (cells.getD row {}) = .move) :
      PlansRow cells row plan
        { plan with changes := plan.changes ++ [(row, t.moved (cells.getD row {}))] }

theorem planRow_ok {t : Transform} {cells : List Cell} {row : Nat} {plan plan' : Plan}
    (h : t.planRow cells row plan = .ok plan') : t.PlansRow cells row plan plan' := by
  unfold planRow at h
  dsimp only at h
  split at h
  next houtside =>
    cases h
    refine .stay (if_pos (.inl fun htouches => ?_))
    rcases houtside with hlow | hhigh | hseq
    · exact absurd htouches.1 (Int.not_le.mpr hlow)
    · exact absurd htouches.2.1 (Int.not_lt.mpr hhigh)
    · rcases htouches.2.2 with hneg | hmem
      · omega
      · exact hseq.2 hmem
  next hinside =>
  have htouches : t.Touches (cells.getD row {}) := by
    simp only [not_or, not_and, not_not] at hinside
    obtain ⟨hlow, hhigh, hseq⟩ := hinside
    refine ⟨by omega, by omega, ?_⟩
    by_cases hneg : t.seq < 0
    · exact .inl hneg
    · exact .inr (hseq (by omega))
  split at h
  · cases h
  split at h
  next hsame =>
    cases h
    exact .stay (if_pos (.inr hsame))
  next hchanged =>
  have hnot : ¬ (¬ t.Touches (cells.getD row {}) ∨
      t.next (cells.getD row {}).pos = (cells.getD row {}).pos) := by
    simp only [not_or, not_not]
    exact ⟨htouches, hchanged⟩
  split at h
  next hneg =>
    cases h
    refine .drop ?_
    unfold fate
    rw [if_neg hnot, if_pos hneg]
  next hpos =>
  split at h
  next hshared =>
    have hfate : t.fate (cells.getD row {}) = .split := by
      unfold fate
      rw [if_neg hnot, if_neg hpos, if_pos hshared]
    split at h
    · cases h
    next destination free hfree =>
      cases h
      exact .split hfate hfree
  next hown =>
  cases h
  refine .move ?_
  unfold fate
  rw [if_neg hnot, if_neg hpos, if_neg hown]

end Transform

/-! ## Applying changes -/

theorem applyChanges_append (cells : List Cell) (changes changes' : List (Nat × Cell)) :
    applyChanges cells (changes ++ changes') = applyChanges (applyChanges cells changes) changes' :=
  List.foldl_append

theorem applyChanges_one (cells : List Cell) (row : Nat) (cell : Cell) :
    applyChanges cells [(row, cell)] = cells.set row cell := rfl

theorem applyChanges_two (cells : List Cell) (row row' : Nat) (cell cell' : Cell) :
    applyChanges cells [(row, cell), (row', cell')] = (cells.set row cell).set row' cell' := rfl

theorem getElem?_applyChanges_two {cells : List Cell} {changes : List (Nat × Cell)}
    {row row' : Nat} {was was' : Cell} (h : (applyChanges cells changes)[row]? = some was)
    (h' : (applyChanges cells changes)[row']? = some was') (cell cell' : Cell) (r : Nat) :
    (applyChanges cells (changes ++ [(row, cell), (row', cell')]))[r]? =
      if r = row' then some cell' else if r = row then some cell
      else (applyChanges cells changes)[r]? := by
  obtain ⟨hlt, -⟩ := List.getElem?_eq_some_iff.mp h
  obtain ⟨hlt', -⟩ := List.getElem?_eq_some_iff.mp h'
  rw [applyChanges_append, applyChanges_two]
  by_cases hr' : r = row'
  · subst hr'
    rw [if_pos rfl, List.getElem?_set_self (by rw [List.length_set]; exact hlt')]
  · rw [if_neg hr', List.getElem?_set_ne (Ne.symm hr')]
    by_cases hr : r = row
    · subst hr
      rw [if_pos rfl, List.getElem?_set_self hlt]
    · rw [if_neg hr, List.getElem?_set_ne (Ne.symm hr)]

/-! ## The plan -/

/-- **The plan after some rows**, in terms of the cells its changes would leave. -/
structure Planned (t : Transform) (cells : List Cell) (rows : List Nat)
    (plan : Plan) : Prop where
  /-- The free rows left are free and differ. -/
  nodup : plan.freeRows.Nodup
  free : ∀ r ∈ plan.freeRows, ∃ cell, cells[r]? = some cell ∧ cell.Free
  /-- Rows that are not free have met their fate if they were planned. -/
  done : ∀ {r : Nat} {cell : Cell}, cells[r]? = some cell → ¬ cell.Free →
    (applyChanges cells plan.changes)[r]? = some (if r ∈ rows then t.after cell else cell)
  /-- Free rows are as they were or hold a token split off. -/
  spare : ∀ {r : Nat} {cell : Cell}, cells[r]? = some cell → cell.Free →
    ((applyChanges cells plan.changes)[r]? = some cell ∧ ∀ row, (row, r) ∉ plan.copies) ∨
    (r ∉ plan.freeRows ∧ ∃ row a, (row, r) ∈ plan.copies ∧ cells[row]? = some a ∧
      t.fate a = .split ∧ (applyChanges cells plan.changes)[r]? = some (t.splitOff a cell.src))
  /-- Every row split has been copied, and only such rows. -/
  copied : ∀ {row : Nat} {a : Cell}, row ∈ rows → cells[row]? = some a → t.fate a = .split →
    ∃ r, (row, r) ∈ plan.copies
  copies : ∀ {row r : Nat}, (row, r) ∈ plan.copies → row ∈ rows ∧ r ∉ plan.freeRows ∧
    (∃ a, cells[row]? = some a ∧ t.fate a = .split) ∧ ∃ cell, cells[r]? = some cell ∧ cell.Free
  /-- No row is copied twice and none is copied to twice. -/
  sources : (plan.copies.map Prod.fst).Nodup
  targets : (plan.copies.map Prod.snd).Nodup
  counted : ((applyChanges cells plan.changes).countP Cell.held : Int) =
    cells.countP Cell.held + plan.usedDelta

namespace Planned

variable {t : Transform} {cells : List Cell} {rows : List Nat} {plan : Plan}

theorem start {free : List Nat} (hnodup : free.Nodup)
    (hfree : ∀ r ∈ free, ∃ cell, cells[r]? = some cell ∧ cell.Free) :
    Planned t cells [] { freeRows := free } where
  nodup := hnodup
  free := hfree
  done hr _ := by simpa [applyChanges] using hr
  spare hr _ := .inl ⟨hr, fun _ hmem => (nomatch hmem)⟩
  copied hmem := (nomatch hmem)
  copies hmem := (nomatch hmem)
  sources := List.nodup_nil
  targets := List.nodup_nil
  counted := by simp [applyChanges]

variable {row : Nat} {cell : Cell}

theorem row_ne {r a} (hcell : cells[row]? = some cell) (hne : ¬ cell.Free)
    (hr : cells[r]? = some a) (ha : a.Free) : r ≠ row := by
  rintro rfl
  obtain rfl := some.inj (hcell.symm.trans hr)
  exact hne ha

theorem copied_snoc (h : Planned t cells rows plan)
    (hfate : ∀ {cell : Cell}, cells[row]? = some cell → t.fate cell ≠ .split) {r a}
    (hmem : r ∈ rows ++ [row]) (hr : cells[r]? = some a) (hsplit : t.fate a = .split) :
    ∃ r', (r, r') ∈ plan.copies := by
  rcases List.mem_append.mp hmem with hmem | hmem
  · exact h.copied hmem hr hsplit
  · obtain rfl := List.mem_singleton.mp hmem
    exact absurd hsplit (hfate hr)

theorem untouched (h : Planned t cells rows plan) (hrow : row ∉ rows)
    (hcell : cells[row]? = some cell) (hne : ¬ cell.Free) :
    (applyChanges cells plan.changes)[row]? = some cell := by
  have := h.done hcell hne
  rwa [if_neg hrow] at this

theorem held_set {cells : List Cell} {new : Cell} (h : cells[row]? = some cell) :
    ((cells.set row new).countP Cell.held : Int) =
      cells.countP Cell.held - (if 0 ≤ cell.pos then 1 else 0) + if 0 ≤ new.pos then 1 else 0 := by
  obtain ⟨hlt, hget⟩ := List.getElem?_eq_some_iff.mp h
  have hpos : 0 ≤ cell.pos → 0 < cells.countP Cell.held := fun hpos =>
    List.countP_pos_iff.mpr ⟨cell, List.mem_of_getElem? h, by simpa [Cell.held] using hpos⟩
  rw [List.countP_set hlt, hget]
  simp only [Cell.held, decide_eq_true_eq]
  split <;> split <;> simp_all

theorem change (h : Planned t cells rows plan) (hrow : row ∉ rows)
    (hcell : cells[row]? = some cell) (hheld : 0 ≤ cell.pos) (hfate : t.fate cell ≠ .split) {delta}
    (hdelta : delta = if 0 ≤ (t.after cell).pos then plan.usedDelta else plan.usedDelta - 1) :
    Planned t cells (rows ++ [row])
      { plan with changes := plan.changes ++ [(row, t.after cell)], usedDelta := delta } where
  nodup := h.nodup
  free := h.free
  done := by
    intro r a hr ha
    rw [applyChanges_append, applyChanges_one, List.getElem?_set]
    by_cases heq : row = r
    · subst heq
      obtain rfl := some.inj (hcell.symm.trans hr)
      obtain ⟨hlt, -⟩ := List.getElem?_eq_some_iff.mp
        (h.untouched hrow hcell (Cell.not_free_of_pos hheld))
      rw [if_pos rfl, if_pos hlt, if_pos (by simp)]
    · rw [if_neg heq, h.done hr ha]
      simp only [List.mem_append, List.mem_singleton, Ne.symm heq, or_false]
  spare := by
    intro r a hr ha
    rw [applyChanges_append, applyChanges_one,
      List.getElem?_set_ne (row_ne hcell (Cell.not_free_of_pos hheld) hr ha).symm]
    exact h.spare hr ha
  copied := h.copied_snoc fun hr => some.inj (hcell.symm.trans hr) ▸ hfate
  copies hmem := (h.copies hmem).imp_left (List.mem_append_left _)
  sources := h.sources
  targets := h.targets
  counted := by
    have hcounted := h.counted
    rw [applyChanges_append, applyChanges_one,
      held_set (h.untouched hrow hcell (Cell.not_free_of_pos hheld)), if_pos hheld, hdelta]
    dsimp only
    split <;> omega

theorem pass (h : Planned t cells rows plan)
    (hstay : ∀ {cell : Cell}, cells[row]? = some cell → t.fate cell = .stay) :
    Planned t cells (rows ++ [row]) plan where
  nodup := h.nodup
  free := h.free
  done := by
    intro r a hr ha
    rw [h.done hr ha]
    by_cases heq : r = row
    · subst heq
      have hafter : t.after a = a := by
        unfold Transform.after
        rw [hstay hr]
      simp [hafter]
    · simp [heq]
  spare := h.spare
  copied := h.copied_snoc fun hr => by simp [hstay hr]
  copies hmem := (h.copies hmem).imp_left (List.mem_append_left _)
  sources := h.sources
  targets := h.targets
  counted := h.counted

theorem nodup_map_snoc {α β : Type} {f : α → β} {l : List α} {x : α} (h : (l.map f).Nodup)
    (hnew : ∀ y ∈ l, f y ≠ f x) : ((l ++ [x]).map f).Nodup := by
  rw [List.map_append]
  refine h.append (List.nodup_singleton _) fun b hb hx => ?_
  obtain ⟨y, hy, rfl⟩ := List.mem_map.mp hb
  exact hnew y hy (List.mem_singleton.mp hx)

theorem splits (h : Planned t cells rows plan) (hrow : row ∉ rows)
    (hcell : cells[row]? = some cell) (hfate : t.fate cell = .split) (hpos : 0 ≤ cell.pos)
    (hnext : 0 ≤ t.next cell.pos) {destination free dest}
    (hfree : plan.freeRows = destination :: free)
    (hdest : cells[destination]? = some dest) :
    Planned t cells (rows ++ [row])
      { changes := plan.changes ++ [(destination, t.splitOff cell dest.src),
          (row, { cell with seqId := cell.seqId.erase t.seq })]
        copies := plan.copies ++ [(row, destination)]
        freeRows := free
        usedDelta := plan.usedDelta + 1 } := by
  have hne : ¬ cell.Free := Cell.not_free_of_pos hpos
  have hdestmem : destination ∈ plan.freeRows := hfree ▸ List.mem_cons_self
  have hsub : ∀ r ∈ free, r ∈ plan.freeRows := fun r hr => hfree ▸ List.mem_cons_of_mem _ hr
  obtain ⟨hnotin, hnodup⟩ := List.nodup_cons.mp (hfree ▸ h.nodup)
  have hdestempty : dest.Free := by
    obtain ⟨a, ha, hempty⟩ := h.free destination hdestmem
    obtain rfl := some.inj (hdest.symm.trans ha)
    exact hempty
  have hdiff := row_ne hcell hne hdest hdestempty
  have hbefore := h.untouched hrow hcell hne
  -- the destination has not been used yet
  have hfresh : (applyChanges cells plan.changes)[destination]? = some dest ∧
      ∀ r, (r, destination) ∉ plan.copies := by
    rcases h.spare hdest hdestempty with hsame | ⟨hnot, -⟩
    · exact hsame
    · exact absurd hdestmem hnot
  have hlook := getElem?_applyChanges_two hfresh.1 hbefore (t.splitOff cell dest.src)
    { cell with seqId := cell.seqId.erase t.seq }
  have hafter : t.after cell = { cell with seqId := cell.seqId.erase t.seq } := by
    unfold Transform.after
    rw [hfate]
  refine ⟨hnodup, fun r hr => h.free r (hsub r hr), ?_, ?_, ?_, ?_, ?_, ?_, ?_⟩
  · intro r a hr ha
    rw [hlook]
    by_cases heq : r = row
    · subst heq
      obtain rfl := some.inj (hcell.symm.trans hr)
      rw [if_pos rfl, if_pos (by simp), hafter]
    · rw [if_neg heq, if_neg (row_ne hr ha hdest hdestempty).symm, h.done hr ha]
      simp only [List.mem_append, List.mem_singleton, heq, or_false]
  · intro r a hr ha
    rw [hlook, if_neg (row_ne hcell hne hr ha)]
    by_cases heq : r = destination
    · subst heq
      obtain rfl := some.inj (hdest.symm.trans hr)
      rw [if_pos rfl]
      exact .inr ⟨hnotin, row, cell, by simp, hcell, hfate, rfl⟩
    · rw [if_neg heq]
      rcases h.spare hr ha with ⟨hsame, hno⟩ | ⟨hnot, from', b, hcopy, hb, hsplit, hnow⟩
      · refine .inl ⟨hsame, fun from' hmem => ?_⟩
        rcases List.mem_append.mp hmem with hmem | hmem
        · exact hno from' hmem
        · exact heq (congrArg Prod.snd (List.mem_singleton.mp hmem))
      · exact .inr ⟨fun hin => hnot (hsub r hin), from', b, List.mem_append_left _ hcopy, hb,
          hsplit, hnow⟩
  · intro r a hmem hr hsplit
    rcases List.mem_append.mp hmem with hmem | hmem
    · obtain ⟨r', hcopy⟩ := h.copied hmem hr hsplit
      exact ⟨r', List.mem_append_left _ hcopy⟩
    · obtain rfl := List.mem_singleton.mp hmem
      exact ⟨destination, by simp⟩
  · intro r r' hmem
    rcases List.mem_append.mp hmem with hmem | hmem
    · obtain ⟨hr, hnot, hsplit, hempty⟩ := h.copies hmem
      exact ⟨List.mem_append_left _ hr, fun hin => hnot (hsub _ hin), hsplit, hempty⟩
    · obtain ⟨rfl, rfl⟩ := Prod.mk.inj (List.mem_singleton.mp hmem)
      exact ⟨by simp, hnotin, ⟨cell, hcell, hfate⟩, dest, hdest, hdestempty⟩
  · exact nodup_map_snoc h.sources fun copy hcopy (heq : copy.1 = row) =>
      hrow (heq ▸ (h.copies hcopy).1)
  · exact nodup_map_snoc h.targets fun copy hcopy (heq : copy.2 = destination) =>
      (h.copies hcopy).2.1 (heq.symm ▸ hdestmem)
  · have hcounted := h.counted
    have hsecond : ((applyChanges cells plan.changes).set destination
        (t.splitOff cell dest.src))[row]? = some cell := by
      rw [List.getElem?_set_ne hdiff]
      exact hbefore
    have hdestpos : ¬ 0 ≤ dest.pos := Int.not_le.mpr hdestempty.1
    have hnow : 0 ≤ (t.splitOff cell dest.src).pos := hnext
    rw [applyChanges_append, applyChanges_two, held_set hsecond, held_set hfresh.1,
      if_neg hdestpos, if_pos hnow, if_pos hpos]
    dsimp only
    omega

end Planned

namespace Transform

variable {t : Transform} {cell : Cell}

theorem touches_of_fate (h : t.fate cell ≠ .stay) :
    t.Touches cell ∧ t.next cell.pos ≠ cell.pos := by
  unfold fate at h
  split at h
  · exact absurd rfl h
  next hnot =>
    simp only [not_or, not_not] at hnot
    exact hnot

theorem fate_drop (h : t.fate cell = .drop) : t.Touches cell ∧ t.next cell.pos < 0 := by
  refine ⟨(touches_of_fate (by rw [h]; decide)).1, ?_⟩
  unfold fate at h
  split at h
  · cases h
  split at h
  next hneg => exact hneg
  · split at h <;> cases h

theorem fate_split (h : t.fate cell = .split) :
    t.Touches cell ∧ 0 ≤ t.next cell.pos ∧ t.seq ∈ cell.seqId ∧ 1 < cell.seqId.card := by
  have hstay : t.fate cell ≠ .stay := by
    rw [h]
    decide
  have htouches := (touches_of_fate hstay).1
  unfold fate at h
  split at h
  · cases h
  split at h
  · cases h
  next hpos =>
  split at h
  next hshared =>
    refine ⟨htouches, Int.not_lt.mp hpos, ?_, hshared.2⟩
    exact htouches.2.2.resolve_left (by omega)
  · cases h

theorem seq_nonneg_of_split (h : t.fate cell = .split) : 0 ≤ t.seq := by
  unfold fate at h
  split at h
  · cases h
  split at h
  · cases h
  split at h
  next hshared => exact hshared.1
  · cases h

theorem fate_move (h : t.fate cell = .move) : t.Touches cell ∧ 0 ≤ t.next cell.pos ∧
    (t.seq < 0 ∨ cell.seqId = {t.seq}) := by
  have hstay : t.fate cell ≠ .stay := by
    rw [h]
    decide
  have htouches := (touches_of_fate hstay).1
  unfold fate at h
  split at h
  · cases h
  split at h
  · cases h
  next hpos =>
  split at h
  · cases h
  next hown =>
  refine ⟨htouches, Int.not_lt.mp hpos, ?_⟩
  rcases htouches.2.2 with hneg | hmem
  · exact .inl hneg
  · by_cases hneg : t.seq < 0
    · exact .inl hneg
    · have hcard : cell.seqId.card ≤ 1 := by
        by_contra hgt
        exact hown ⟨by omega, by omega⟩
      have hsub : cell.seqId ⊆ {t.seq} := fun q hq =>
        mem_singleton.mpr (card_le_one.mp hcard q hq t.seq hmem)
      exact .inr (Finset.Subset.antisymm hsub (singleton_subset_iff.mpr hmem))

theorem dropped_taken (h : 0 ≤ cell.pos) :
    0 ≤ (t.dropped cell).pos ↔ (t.dropped cell).seqId ≠ ∅ := by
  unfold dropped
  split
  · exact ⟨fun h => absurd h (show ¬ (0 : Int) ≤ -1 by decide), fun h => absurd rfl h⟩
  next hleft => exact ⟨fun _ => hleft, fun _ => h⟩

theorem nonneg_of_fate (hfirst : 0 ≤ t.first) (h : t.fate cell ≠ .stay) : 0 ≤ cell.pos :=
  Int.le_trans hfirst (touches_of_fate h).1.1

theorem nonneg_of_after (hfirst : 0 ≤ t.first) (h : 0 ≤ (t.after cell).pos) : 0 ≤ cell.pos := by
  by_cases hstay : t.fate cell = .stay
  · unfold after at h
    rwa [hstay] at h
  · exact nonneg_of_fate hfirst hstay

/-- A row at a position that names a sequence does so afterwards, if it is at one. -/
theorem after_named (h : 0 ≤ cell.pos → cell.seqId ≠ ∅) (hfirst : 0 ≤ t.first)
    (hpos : 0 ≤ (t.after cell).pos) : (t.after cell).seqId ≠ ∅ := by
  have hne := h (nonneg_of_after hfirst hpos)
  unfold after at hpos ⊢
  cases hfate : t.fate cell with
  | stay => exact hne
  | drop =>
    rw [hfate] at hpos
    exact (dropped_taken (nonneg_of_fate hfirst (by simp [hfate]))).mp hpos
  | split =>
    obtain ⟨-, -, hmem, hcard⟩ := fate_split hfate
    rw [← nonempty_iff_ne_empty, ← card_pos, card_erase_of_mem hmem]
    omega
  | move => exact hne

theorem after_taken (h : 0 ≤ cell.pos ↔ cell.seqId ≠ ∅) (hfirst : 0 ≤ t.first) :
    0 ≤ (t.after cell).pos ↔ (t.after cell).seqId ≠ ∅ := by
  refine ⟨after_named h.mp hfirst, fun hne => ?_⟩
  have hpos : t.fate cell ≠ .stay → 0 ≤ cell.pos := nonneg_of_fate hfirst
  unfold after at hne ⊢
  cases hfate : t.fate cell with
  | stay =>
    rw [hfate] at hne
    exact h.mpr hne
  | drop =>
    rw [hfate] at hne
    exact (dropped_taken (hpos (by simp [hfate]))).mpr hne
  | split => exact hpos (by simp [hfate])
  | move => exact (fate_move hfate).2.1

end Transform

theorem getD_of_getElem? {cells : List Cell} {row : Nat} {cell : Cell}
    (h : cells[row]? = some cell) : cells.getD row {} = cell := by
  rw [List.getD_eq_getElem?_getD, h]
  rfl

variable {t : Transform} {c : Cache} {plan : Plan}

theorem Transform.token_of_fate {cells : List Cell} {row : Nat} (hfirst : 0 ≤ t.first)
    (h : t.fate (cells.getD row {}) ≠ .stay) :
    cells[row]? = some (cells.getD row {}) ∧ 0 ≤ (cells.getD row {}).pos := by
  obtain ⟨htouches, -⟩ := Transform.touches_of_fate h
  have hpos : 0 ≤ (cells.getD row {}).pos := Int.le_trans hfirst htouches.1
  have hlt : row < cells.length := by
    by_contra hge
    rw [List.getD_eq_default _ _ (Nat.le_of_not_lt hge)] at hpos
    exact absurd hpos (by decide)
  rw [List.getD_eq_getElem _ _ hlt, List.getElem?_eq_getElem hlt] at *
  exact ⟨rfl, hpos⟩

/-- **One row is planned.** -/
theorem Planned.row {t : Transform} {cells : List Cell} {row : Nat} {rows : List Nat}
    {plan plan' : Plan} (h : Planned t cells rows plan)
    (hfirst : 0 ≤ t.first) (hrow : row ∉ rows) (hplan : t.PlansRow cells row plan plan') :
    Planned t cells (rows ++ [row]) plan' := by
  cases hplan with
  | stay hfate =>
    refine h.pass fun hcell => ?_
    rw [getD_of_getElem? hcell] at hfate
    exact hfate
  | drop hfate =>
    obtain ⟨hcell, hpos⟩ := t.token_of_fate hfirst (by rw [hfate]; decide)
    generalize cells.getD row {} = cell at hfate hcell hpos ⊢
    have hafter : t.after cell = t.dropped cell := by
      unfold Transform.after
      rw [hfate]
    rw [← hafter]
    refine h.change hrow hcell hpos (by rw [hfate]; decide) ?_
    have htaken := Transform.dropped_taken (t := t) hpos
    rw [hafter]
    by_cases hempty : (t.dropped cell).seqId = ∅
    · rw [if_pos hempty, if_neg fun hnow => htaken.mp hnow hempty]
    · rw [if_neg hempty, if_pos (htaken.mpr hempty)]
  | @split destination free hfate hfree =>
    obtain ⟨hcell, hpos⟩ := t.token_of_fate hfirst (by rw [hfate]; decide)
    generalize cells.getD row {} = cell at hfate hcell hpos ⊢
    obtain ⟨-, hnext, -, -⟩ := Transform.fate_split hfate
    obtain ⟨dest, hdest, -⟩ := h.free destination (by rw [hfree]; exact List.mem_cons_self)
    rw [getD_of_getElem? hdest]
    exact h.splits hrow hcell hfate hpos hnext hfree hdest
  | move hfate =>
    obtain ⟨hcell, hpos⟩ := t.token_of_fate hfirst (by rw [hfate]; decide)
    generalize cells.getD row {} = cell at hfate hcell hpos ⊢
    obtain ⟨-, hnext, -⟩ := Transform.fate_move hfate
    have hafter : t.after cell = t.moved cell := by
      unfold Transform.after
      rw [hfate]
    rw [← hafter]
    refine h.change hrow hcell hpos (by rw [hfate]; decide) ?_
    rw [hafter, if_pos (show 0 ≤ (t.moved cell).pos from hnext)]

theorem Planned.rows {t : Transform} {cells : List Cell} {rows rest : List Nat}
    {plan plan' : Plan} (h : Planned t cells rows plan)
    (hfirst : 0 ≤ t.first) (hnodup : (rows ++ rest).Nodup)
    (hplan : t.planRows cells rest plan = .ok plan') :
    Planned t cells (rows ++ rest) plan' := by
  induction rest generalizing rows plan with
  | nil =>
    cases hplan
    rw [List.append_nil]
    exact h
  | cons row rest ih =>
    unfold Transform.planRows at hplan
    split at hplan
    · cases hplan
    next planned hrow =>
    have hnot : row ∉ rows := by
      intro hmem
      exact (List.disjoint_of_nodup_append hnodup) hmem List.mem_cons_self
    have hstep := h.row hfirst hnot (Transform.planRow_ok hrow)
    rw [List.append_cons] at hnodup ⊢
    exact ih hstep hnodup hplan

theorem Planned.all (hfirst : 0 ≤ t.first)
    (hplan : t.planRows c.cells (List.range c.size) { freeRows := c.freeRows } = .ok plan) :
    Planned t c.cells (List.range c.size) plan := by
  have hstart : Planned t c.cells [] { freeRows := c.freeRows } := by
    refine .start (List.nodup_range.filter _) fun r hr => ?_
    obtain ⟨hlt, hfree⟩ := List.mem_filter.mp hr
    have hlt : r < c.cells.length := List.mem_range.mp hlt
    rw [decide_eq_true_iff, Cell.isEmpty_iff] at hfree
    refine ⟨c.cell r, ?_, hfree⟩
    unfold cell
    rw [List.getD_eq_getElem _ _ hlt, List.getElem?_eq_getElem hlt]
  have hall := hstart.rows hfirst (by rw [List.nil_append]; exact List.nodup_range) hplan
  rw [List.nil_append] at hall
  exact hall

/-! ## The cells afterwards -/

/-- **What a change of positions does to the cells**; a free row stays or takes a split token.
-/
structure Transformed (t : Transform) (cells cells' : List Cell) (copies : List (Nat × Nat)) :
    Prop where
  length : cells'.length = cells.length
  done : ∀ {r : Nat} {cell : Cell}, cells[r]? = some cell → ¬ cell.Free →
    cells'[r]? = some (t.after cell)
  spare : ∀ {r : Nat} {cell : Cell}, cells[r]? = some cell → cell.Free →
    (cells'[r]? = some cell ∧ ∀ row, (row, r) ∉ copies) ∨
    ∃ row a, (row, r) ∈ copies ∧ cells[row]? = some a ∧ t.fate a = .split ∧
      cells'[r]? = some (t.splitOff a cell.src)
  copied : ∀ {row : Nat} {a : Cell}, cells[row]? = some a → t.fate a = .split →
    ∃ r, (row, r) ∈ copies
  ends : ∀ {row r : Nat}, (row, r) ∈ copies →
    (∃ a, cells[row]? = some a ∧ t.fate a = .split) ∧ ∃ cell, cells[r]? = some cell ∧ cell.Free
  sources : (copies.map Prod.fst).Nodup
  targets : (copies.map Prod.snd).Nodup

theorem Planned.transformed (h : Planned t c.cells (List.range c.size) plan) :
    Transformed t c.cells (applyChanges c.cells plan.changes) plan.copies where
  length := length_applyChanges _ _
  done := by
    intro r cell hr hne
    have hmem : r ∈ List.range c.size :=
      List.mem_range.mpr (List.getElem?_eq_some_iff.mp hr).1
    have := h.done hr hne
    rwa [if_pos hmem] at this
  spare := by
    intro r cell hr hempty
    rcases h.spare hr hempty with hsame | ⟨-, hsplit⟩
    · exact .inl hsame
    · exact .inr hsplit
  copied := by
    intro row a hr hsplit
    exact h.copied (List.mem_range.mpr (List.getElem?_eq_some_iff.mp hr).1) hr hsplit
  ends hmem := (h.copies hmem).2.2
  sources := h.sources
  targets := h.targets

namespace Transformed

variable {t : Transform} {cells cells' : List Cell} {copies : List (Nat × Nat)}

theorem after_subset (cell : Cell) : (t.after cell).seqId ⊆ cell.seqId ∧
    ((t.after cell).seqId ≠ ∅ → (t.after cell).order = cell.order) := by
  unfold Transform.after
  split
  · exact ⟨Finset.Subset.refl _, fun _ => rfl⟩
  · unfold Transform.dropped
    split
    · exact ⟨empty_subset _, fun hne => absurd rfl hne⟩
    · exact ⟨cell.without_subset t.seq, fun _ => rfl⟩
  · exact ⟨erase_subset _ _, fun _ => rfl⟩
  · exact ⟨Finset.Subset.refl _, fun _ => rfl⟩

variable {r : Nat}

theorem origin (h : Transformed t cells cells' copies) {b} (hr : cells'[r]? = some b)
    (hne : b.seqId ≠ ∅) :
    (∃ a, cells[r]? = some a ∧ b = t.after a ∧ ∀ row, (row, r) ∉ copies) ∨
    ∃ row a src, (row, r) ∈ copies ∧ cells[row]? = some a ∧ t.fate a = .split ∧
      b = t.splitOff a src := by
  have hlt : r < cells.length := h.length ▸ (List.getElem?_eq_some_iff.mp hr).1
  have hcell : cells[r]? = some cells[r] := List.getElem?_eq_getElem hlt
  by_cases hempty : cells[r].Free
  · rcases h.spare hcell hempty with ⟨hsame, -⟩ | ⟨row, a, hcopy, ha, hsplit, hnow⟩
    · obtain rfl := some.inj (hsame.symm.trans hr)
      exact absurd hempty.2 hne
    · exact .inr ⟨row, a, _, hcopy, ha, hsplit, some.inj (hr.symm.trans hnow)⟩
  · refine .inl ⟨_, hcell, some.inj (hr.symm.trans (h.done hcell hempty)), ?_⟩
    intro row hcopy
    obtain ⟨-, cell, hcell', hempty'⟩ := h.ends hcopy
    obtain rfl := some.inj (hcell.symm.trans hcell')
    exact hempty hempty'

theorem src_eq (h : Transformed t cells cells' copies) {a b} (ha : cells[r]? = some a)
    (hb : cells'[r]? = some b) : b.src = a.src := by
  by_cases hempty : a.Free
  · rcases h.spare ha hempty with ⟨hsame, -⟩ | ⟨row, x, -, -, -, hnow⟩
    · obtain rfl := some.inj (hsame.symm.trans hb)
      rfl
    · obtain rfl := some.inj (hnow.symm.trans hb)
      rfl
  · obtain rfl := some.inj ((h.done ha hempty).symm.trans hb)
    unfold Transform.after
    split
    · rfl
    · unfold Transform.dropped
      split <;> rfl
    · rfl
    · rfl

theorem mem_of_snd_eq {row row'} (h : (copies.map Prod.snd).Nodup) (hmem : (row, r) ∈ copies)
    (hmem' : (row', r) ∈ copies) : row = row' :=
  congrArg Prod.fst (List.inj_on_of_nodup_map h hmem hmem' rfl)

theorem mem_of_fst_eq {row r'} (h : (copies.map Prod.fst).Nodup) (hmem : (row, r) ∈ copies)
    (hmem' : (row, r') ∈ copies) : r = r' :=
  congrArg Prod.snd (List.inj_on_of_nodup_map h hmem hmem' rfl)

def source (copies : List (Nat × Nat)) (r : Nat) : Nat :=
  match copies.find? fun copy => copy.2 = r with
  | some copy => copy.1
  | none => r

theorem source_of_mem {row} (h : (copies.map Prod.snd).Nodup) (hmem : (row, r) ∈ copies) :
    source copies r = row := by
  unfold source
  cases hfind : copies.find? fun copy => copy.2 = r with
  | none =>
    have := List.find?_eq_none.mp hfind (row, r) hmem
    simp at this
  | some copy =>
    have hsnd : copy.2 = r := by simpa using List.find?_some hfind
    have hcopy : (copy.1, r) ∈ copies := hsnd ▸ List.mem_of_find?_eq_some hfind
    exact mem_of_snd_eq h hcopy hmem

theorem source_of_not_mem (h : ∀ row, (row, r) ∉ copies) : source copies r = r := by
  unfold source
  rw [List.find?_eq_none.mpr ?_]
  intro copy hmem heq
  have hsnd : copy.2 = r := by simpa using heq
  exact h copy.1 (hsnd ▸ hmem)

theorem apart (h : Transformed t cells cells' copies) {i j a b} (hi : cells'[i]? = some a)
    (hj : cells'[j]? = some b) (hij : i ≠ j) (heq : source copies i = source copies j) :
    Disjoint a.seqId b.seqId := by
  by_cases hane : a.seqId = ∅
  · rw [hane]
    exact disjoint_empty_left _
  by_cases hbne : b.seqId = ∅
  · rw [hbne]
    exact disjoint_empty_right _
  have hsplits : ∀ {x : Cell}, t.fate x = .split → ∀ src,
      Disjoint (t.splitOff x src).seqId (t.after x).seqId := by
    intro x hx src
    unfold Transform.after
    rw [hx]
    exact disjoint_singleton_left.mpr (notMem_erase _ _)
  rcases h.origin hi hane with ⟨x, hx, rfl, hno⟩ | ⟨row, x, src, hcopy, hx, hsplit, rfl⟩ <;>
    rcases h.origin hj hbne with ⟨y, hy, rfl, hno'⟩ | ⟨row', y, src', hcopy', hy, hsplit', rfl⟩
  · rw [source_of_not_mem hno, source_of_not_mem hno'] at heq
    exact absurd heq hij
  · rw [source_of_not_mem hno, source_of_mem h.targets hcopy'] at heq
    subst heq
    obtain rfl := some.inj (hx.symm.trans hy)
    exact (hsplits hsplit' src').symm
  · rw [source_of_mem h.targets hcopy, source_of_not_mem hno'] at heq
    subst heq
    obtain rfl := some.inj (hx.symm.trans hy)
    exact hsplits hsplit src
  · rw [source_of_mem h.targets hcopy, source_of_mem h.targets hcopy'] at heq
    subst heq
    exact absurd (mem_of_fst_eq h.sources hcopy hcopy') hij

theorem chronological (h : Transformed t cells cells' copies) (hc : Chronological cells) :
    Chronological cells' := by
  refine hc.transfer (source copies) ?_ h.apart
  intro r b hr hne
  rcases h.origin hr hne with ⟨a, ha, rfl, hno⟩ | ⟨row, a, src, hcopy, ha, hsplit, rfl⟩
  · rw [source_of_not_mem hno]
    exact ⟨a, ha, (after_subset a).1, (after_subset a).2 hne⟩
  · rw [source_of_mem h.targets hcopy]
    obtain ⟨-, -, hmem, -⟩ := Transform.fate_split hsplit
    exact ⟨a, ha, singleton_subset_iff.mpr hmem, rfl⟩

/-- What a change of one row keeps holds of every row afterwards. -/
theorem each {P : Cell → Prop} (h : Transformed t cells cells' copies) (hcells : ∀ a ∈ cells, P a)
    (hafter : ∀ a, P a → P (t.after a))
    (hsplit : ∀ a src, t.fate a = .split → P (t.splitOff a src)) : ∀ b ∈ cells', P b := by
  intro b hb
  obtain ⟨r, hr⟩ := List.mem_iff_getElem?.mp hb
  have hlt : r < cells.length := h.length ▸ (List.getElem?_eq_some_iff.mp hr).1
  have hcell : cells[r]? = some cells[r] := List.getElem?_eq_getElem hlt
  have hold := hcells _ (List.mem_of_getElem? hcell)
  by_cases hfree : cells[r].Free
  · rcases h.spare hcell hfree with ⟨hsame, -⟩ | ⟨row, a, -, -, hfate, hnow⟩
    · exact some.inj (hsame.symm.trans hr) ▸ hold
    · exact some.inj (hnow.symm.trans hr) ▸ hsplit a _ hfate
  · exact some.inj ((h.done hcell hfree).symm.trans hr) ▸ hafter _ hold

end Transformed

theorem held_eq_occupied {cells : List Cell} (h : ∀ cell ∈ cells, 0 ≤ cell.pos → cell.seqId ≠ ∅) :
    cells.countP Cell.held = cells.countP Cell.occupied := by
  refine List.countP_congr fun cell hmem => ?_
  rw [Cell.occupied_iff, Cell.held, decide_eq_true_iff]
  exact ⟨fun hpos => ⟨hpos, h cell hmem hpos⟩, And.left⟩

/-- **The number of rows in use is right afterwards exactly if it was right before**, where every
row at a position names a sequence. -/
theorem used_applyPlan (env : Env) (hfirst : 0 ≤ t.first)
    (hplan : t.planRows c.cells (List.range c.size) { freeRows := c.freeRows } = .ok plan)
    (hused : c.used < 2 ^ 32) (hsize : c.size < 2 ^ 32)
    (hnamed : ∀ cell ∈ c.cells, 0 ≤ cell.pos → cell.seqId ≠ ∅) :
    (c.applyPlan env plan).used = (c.applyPlan env plan).cells.countP Cell.occupied ↔
      c.used = c.cells.countP Cell.occupied := by
  have hplanned := Planned.all hfirst hplan
  have hnamed' := hplanned.transformed.each hnamed
    (fun a ha hpos => Transform.after_named ha hfirst hpos) fun a src _ _ => singleton_ne_empty _
  have hcounted := hplanned.counted
  rw [held_eq_occupied hnamed, held_eq_occupied hnamed'] at hcounted
  have hle : c.cells.countP Cell.occupied ≤ c.size := List.countP_le_length
  have hle' : (applyChanges c.cells plan.changes).countP Cell.occupied ≤ c.size :=
    List.countP_le_length.trans_eq (length_applyChanges _ _)
  show (((c.used : Int) + plan.usedDelta) % 2 ^ 32).toNat =
    (applyChanges c.cells plan.changes).countP Cell.occupied ↔ _
  generalize (applyChanges c.cells plan.changes).countP Cell.occupied = now at *
  generalize c.cells.countP Cell.occupied = before at *
  omega

theorem preserves_applyPlan (env : Env) (hfirst : 0 ≤ t.first)
    (hplan : t.planRows c.cells (List.range c.size) { freeRows := c.freeRows } = .ok plan) :
    Preserves c (c.applyPlan env plan) := by
  have hdone := (Planned.all hfirst hplan).transformed
  refine .of_cells ⟨rfl, rfl⟩ (length_applyChanges _ _) (fun h => ⟨?_, ?_⟩)
    fun _ hc => hdone.chronological hc
  · exact hdone.each h.counted.taken (fun a ha => Transform.after_taken ha hfirst)
      fun a src hsplit =>
      iff_of_true (Transform.fate_split hsplit).2.1 (singleton_ne_empty _)
  · have hsmall := h.small
    have hle : c.cells.countP Cell.occupied ≤ c.cells.length := List.countP_le_length
    unfold u32Max at hsmall
    refine (used_applyPlan env hfirst hplan ?_ ?_
      fun cell hmem => (h.counted.taken cell hmem).mp).mpr
      h.counted.counted
    · rw [h.counted.counted]
      omega
    · unfold size
      omega

theorem preserves_transformPositions (env : Env) (seq p0 p1 delta divisor : Int)
    (side : Option String) :
    Preserves c (c.transformPositions env seq p0 p1 delta divisor side).1 := by
  rcases transformPositions_cases env c seq p0 p1 delta divisor side with
    heq | ⟨plan, ⟨-, hplan⟩, heq⟩
  · rw [heq]
    exact .refl c
  · rw [heq]
    exact preserves_applyPlan env (le_max_left _ _) hplan

end Cache

end ExpertStreaming.KvCache
