import ExpertStreaming.KvCache.State
import Mathlib.Data.List.GetD

/-! # Settling pending changes

`llama_kv_cache_update_internal` applies what the sequence operations have left for later:
the rotation of the keys, the copies of recurrent states and the defragmentation. The
graphs that rotate and move the rows of the tensors are given; they write bytes and keep
the shapes. A failed assertion is `none`.
-/
namespace ExpertStreaming.KvCache
open Lib List

/-- What the context brings to an update. -/
structure Graphs where
  /-- Whether the model rotates keys at all, and `get_can_shift`. -/
  rope : Bool := true
  canShift : Bool := true
  /-- `max_moves`, the moves one defragmentation graph has room for. -/
  maxMoves : Nat
  /-- The bytes `build_k_shift` leaves in the keys and indexer keys of a layer. -/
  shiftK : (deltas : List Int) → (layer : Nat) → Tensor → Memory UInt8
  shiftKr : (deltas : List Int) → (layer : Nat) → Tensor → Memory UInt8
  /-- The bytes `build_defrag` leaves in the rows of a layer. -/
  moveK : (ids : List Nat) → (layer : Nat) → Tensor → Memory UInt8
  moveV : (ids : List Nat) → (layer : Nat) → Tensor → Memory UInt8
  moveKr : (ids : List Nat) → (layer : Nat) → Tensor → Memory UInt8

/-! ## Defragmentation -/

/-- The cell of row `i` goes to row `j`. The sources belong to the slots and stay. -/
def moveCell (cells : List Cell) (i j : Nat) : List Cell :=
  (cells.set j { cells.getD i {} with src := (cells.getD j {}).src }).set i
    { src := (cells.getD i {}).src }

/-- The state of the loop that plans the moves. -/
structure Compaction where
  cells : List Cell
  /-- Where each row goes; `n_kv` for one that is not decided. -/
  ids : List Nat
  head : Nat
  moves : Nat := 0

namespace Compaction

/-- A row that can be moved into a hole: it holds a token and is not decided yet. -/
def movable (d : Compaction) (nKv i : Nat) : Bool :=
  !(d.cells.getD i {}).isEmpty && d.ids.getD i nKv == nKv

def holeSize (d : Compaction) (nUsed i0 : Nat) : Nat :=
  1 + (((d.cells.take nUsed).drop (i0 + 1)).takeWhile (·.isEmpty)).length

/-- From the end, the row with the `nh`-th movable cell, and how many there were. -/
def seekBack (d : Compaction) (nKv i0 nh : Nat) : (row nf : Nat) → Nat × Nat
  | 0, nf => (0, nf)
  | row + 1, nf =>
    if row + 1 ≤ i0 then (row + 1, nf)
    else if d.movable nKv (row + 1) then
      if nf + 1 = nh then (row + 1, nf + 1) else seekBack d nKv i0 nh row (nf + 1)
    else seekBack d nKv i0 nh row nf

def fill (d : Compaction) (nUsed i1 row : Nat) (cont : Bool) : Compaction :=
  { cells := moveCell d.cells i1 row
    ids := d.ids.set i1 row
    head := nUsed
    moves := if cont then d.moves else d.moves + 1 }

/-- Fills the hole from row `i1` on; also says whether the planning has to stop. -/
def fillHole (maxMoves nKv nUsed i0 nh : Nat) :
    (rows i1 nf : Nat) → (cont : Bool) → Compaction → Compaction × Bool
  | 0, _, _, _, d => (d, false)
  | rows + 1, i1, nf, cont, d =>
    if d.movable nKv i1 then
      let d' := d.fill nUsed i1 (i0 + nf) cont
      if nf + 1 = nh then (d', false)
      else fillHole maxMoves nKv nUsed i0 nh rows (i1 + 1) (nf + 1) true d'
    else if d.moves = maxMoves then (d, true)
    else fillHole maxMoves nKv nUsed i0 nh rows (i1 + 1) nf false d

/-- The loop over the first `n_used` rows; `none` when `used` was not accurate. -/
def compact (maxMoves nKv nUsed : Nat) : (rows i0 : Nat) → Compaction → Option Compaction
  | 0, _, d => some d
  | rows + 1, i0, d =>
    if i0 < nUsed then
      if (d.cells.getD i0 {}).isEmpty then
        let nh := d.holeSize nUsed i0
        let found := d.seekBack nKv i0 nh (nKv - 1) 0
        if found.2 = nh then
          let filled := fillHole maxMoves nKv nUsed i0 nh (nKv - found.1) found.1 0 false d
          if filled.2 ∨ filled.1.moves = maxMoves then some filled.1
          else compact maxMoves nKv nUsed rows (i0 + nh) filled.1
        else none
      else compact maxMoves nKv nUsed rows (i0 + 1) { d with ids := d.ids.set i0 i0 }
    else some d

end Compaction

namespace Cache

variable (g : Graphs)

variable (c : Cache)

def defragInternal : Option Cache :=
  let nKv := c.cellMax
  (Compaction.compact g.maxMoves nKv c.used c.used 0
      { cells := c.cells, ids := List.replicate nKv nKv, head := c.head }).map fun d =>
    if d.moves = 0 then { c with cells := d.cells, head := d.head }
    else
      { c with
        cells := d.cells
        head := d.head
        k := mapBytes (g.moveK d.ids) c.k
        v := mapBytes (g.moveV d.ids) c.v
        kr := mapBytes (g.moveKr d.ids) c.kr }

/-- `llama_kv_cache_defrag`. -/
def defrag : Cache := if c.positionStrict then c else { c with doDefrag := true }

/-! ## Shifts and copies -/

def applyShift : Cache :=
  let deltas := c.cells.map (·.delta)
  { c with
    hasShift := false
    cells := c.cells.map fun cell => { cell with delta := 0 }
    k := mapBytes (g.shiftK deltas) c.k
    kr := mapBytes (g.shiftKr deltas) c.kr }

def copySources (i : Nat) : Nat := (c.cell i).src

/-- `build_s_copy`: every slot receives the state of its source, all at once, and the
sources are reset. -/
def applyCopies : Option Cache :=
  if (∀ i < c.qnextStateSlots, c.copySources i < c.qnextStateSlots) ∧
      (c.recurrent = true → ∀ i < c.size, c.copySources i < c.size) then
    some { c with
      doCopy := false
      cells := c.cells.mapIdx fun i cell => { cell with src := i }
      k := if c.recurrent then
        c.k.map (Option.map fun t => t.gatherRows (t.nbytes / c.size) c.copySources) else c.k
      v := if c.recurrent then
        c.v.map (Option.map fun t => t.gatherRows (t.nbytes / c.size) c.copySources) else c.v
      s := c.s.map (Option.map fun t => t.gatherRows t.nb1 c.copySources) }
  else none

def settleCopies : Option Cache :=
  if (c.recurrent || c.hasQnextState) && c.doCopy then c.applyCopies else some c

def settleDefrag : Option Cache :=
  if c.doDefrag then (c.defragInternal g).map fun c => { c with doDefrag := false } else some c

/-- `llama_kv_cache_update_internal`; keys that cannot be shifted end it with `1`. -/
def update : Option (Cache × Nat) :=
  if g.rope && c.hasShift && !g.canShift then some (c, 1)
  else
    ((if g.rope && c.hasShift then c.applyShift g else c).settleCopies.bind
      (settleDefrag g)).map fun c => (c, 0)

end Cache

/-! ## What defragmenting does to the cells -/

/-- The cells after some moves, each from a row that holds a token into an empty row
before it. -/
inductive Compacts (cells : List Cell) : List Cell → Prop
  | refl : Compacts cells cells
  | move {now : List Cell} {i j : Nat} (h : Compacts cells now)
      (hfull : (now.getD i {}).isEmpty = false) (hempty : (now.getD j {}).isEmpty = true)
      (hlt : j < i) : Compacts cells (moveCell now i j)

theorem Compacts.trans {a b c} (h : Compacts a b) (h' : Compacts b c) :
    Compacts a c := by
  induction h' with
  | refl => exact h
  | move _ hfull hempty hlt ih => exact ih.move hfull hempty hlt

@[simp] theorem length_moveCell (cells : List Cell) (i j : Nat) :
    (moveCell cells i j).length = cells.length := by
  simp [moveCell]

variable {cells : List Cell}

theorem Compacts.length {now} (h : Compacts cells now) :
    now.length = cells.length := by
  induction h with
  | refl => rfl
  | move _ _ _ _ ih => rw [length_moveCell, ih]

theorem getD_of_isEmpty_false {i} (h : (cells.getD i {}).isEmpty = false) : i < cells.length := by
  by_contra hge
  rw [getD_eq_default _ _ (Nat.le_of_not_lt hge)] at h
  cases h

theorem getD_moveCell {i j} (hi : i < cells.length) (hlt : j < i) (row : Nat) :
    (moveCell cells i j).getD row {} =
      if row = i then { src := (cells.getD i {}).src }
      else if row = j then { cells.getD i {} with src := (cells.getD j {}).src }
      else cells.getD row {} := by
  unfold moveCell
  by_cases hri : row = i
  · subst hri
    simp [getD_eq_getElem?_getD, hi]
  · by_cases hrj : row = j
    · rw [if_neg hri, if_pos hrj, getD_eq_getElem?_getD, getElem?_set_ne (Ne.symm hri),
        hrj, getElem?_set_self (Nat.lt_trans hlt hi)]
      rfl
    · rw [if_neg hri, if_neg hrj, getD_eq_getElem?_getD, getElem?_set_ne (Ne.symm hri),
        getElem?_set_ne (Ne.symm hrj), ← getD_eq_getElem?_getD]

namespace Compaction

variable {d : Compaction} {nKv i0 nUsed : Nat}

theorem movable_full {i} (h : d.movable nKv i = true) :
    (d.cells.getD i {}).isEmpty = false := by
  unfold movable at h
  rw [Bool.and_eq_true] at h
  simpa using h.1

theorem seekBack_spec {nh row nf} (hnf : nf < nh) (h : (d.seekBack nKv i0 nh row nf).2 = nh) :
    i0 < (d.seekBack nKv i0 nh row nf).1 ∧
      (d.cells.getD (d.seekBack nKv i0 nh row nf).1 {}).isEmpty = false := by
  induction row generalizing nf with
  | zero =>
    unfold seekBack at h
    simp only at h
    omega
  | succ row ih =>
    unfold seekBack at h ⊢
    split
    next hle =>
      rw [if_pos hle] at h
      simp only at h
      omega
    next hgt =>
    rw [if_neg hgt] at h
    split
    next hmovable =>
      rw [if_pos hmovable] at h
      split
      · exact ⟨Nat.lt_of_not_le hgt, movable_full hmovable⟩
      next hmore =>
        rw [if_neg hmore] at h
        exact ih (by omega) h
    next hnot =>
      rw [if_neg hnot] at h
      exact ih hnf h

theorem holeSize_spec {row} (hempty : (d.cells.getD i0 {}).isEmpty = true) (hle : i0 ≤ row)
    (hlt : row < i0 + d.holeSize nUsed i0) : (d.cells.getD row {}).isEmpty = true := by
  by_cases heq : row = i0
  · rw [heq]
    exact hempty
  have hwithin : row - (i0 + 1) <
      (((d.cells.take nUsed).drop (i0 + 1)).takeWhile (·.isEmpty)).length := by
    unfold holeSize at hlt
    omega
  obtain ⟨k, hk⟩ : ∃ k, row = i0 + 1 + k := ⟨row - (i0 + 1), by omega⟩
  subst hk
  rw [Nat.add_sub_cancel_left] at hwithin
  have hmem := all_eq_true.mp all_takeWhile _ (getElem_mem hwithin)
  rw [( takeWhile_prefix _).getElem hwithin, getElem_drop, getElem_take] at hmem
  have hlen : i0 + 1 + k < d.cells.length := by
    have := ( takeWhile_prefix (fun cell : Cell => cell.isEmpty)
      (l := (d.cells.take nUsed).drop (i0 + 1))).length_le
    rw [length_drop, length_take] at this
    omega
  rw [getD_eq_getElem _ _ hlen]
  exact hmem

theorem fillHole_compacts {maxMoves nh rows i1 nf cont} (hbehind : i0 + nh ≤ i1) (hnf : nf < nh)
    (hempty : ∀ row, i0 + nf ≤ row → row < i0 + nh → (d.cells.getD row {}).isEmpty = true) :
    Compacts d.cells (fillHole maxMoves nKv nUsed i0 nh rows i1 nf cont d).1.cells := by
  induction rows generalizing i1 nf cont d with
  | zero => exact .refl
  | succ rows ih =>
    unfold fillHole
    split
    next hmovable =>
      have hfull := movable_full hmovable
      have hmoved : Compacts d.cells (d.fill nUsed i1 (i0 + nf) cont).cells :=
        .move .refl hfull (hempty _ (Nat.le_refl _) (by omega)) (by omega)
      dsimp only
      split
      · exact hmoved
      · refine hmoved.trans (ih (by omega) (by omega) fun row hge hlt => ?_)
        rw [show (d.fill nUsed i1 (i0 + nf) cont).cells = moveCell d.cells i1 (i0 + nf) from rfl,
          getD_moveCell (getD_of_isEmpty_false hfull) (by omega), if_neg (by omega),
          if_neg (by omega)]
        exact hempty row (by omega) hlt
    · split
      · exact .refl
      · exact ih (by omega) hnf hempty

/-- **The planning only moves cells forward into holes.** -/
theorem compact_compacts {maxMoves rows d'} (h : compact maxMoves nKv nUsed rows i0 d = some d') :
    Compacts d.cells d'.cells := by
  induction rows generalizing i0 d with
  | zero =>
    cases h
    exact .refl
  | succ rows ih =>
    unfold compact at h
    split at h
    · split at h
      next hhole =>
        dsimp only at h
        split at h
        next hfound =>
          have hpos : 0 < d.holeSize nUsed i0 := by
            unfold holeSize
            omega
          obtain ⟨hbehind, hfull⟩ := seekBack_spec hpos hfound
          have hrow : i0 + d.holeSize nUsed i0 ≤
              (d.seekBack nKv i0 (d.holeSize nUsed i0) (nKv - 1) 0).1 := by
            by_contra hlt
            have hempty := holeSize_spec hhole (Nat.le_of_lt hbehind) (Nat.lt_of_not_le hlt)
            rw [hempty] at hfull
            cases hfull
          split at h
          · cases h
            exact fillHole_compacts hrow hpos fun row hge hlt => holeSize_spec hhole hge hlt
          · refine (fillHole_compacts hrow hpos fun row hge hlt => ?_).trans (ih h)
            exact holeSize_spec hhole hge hlt
        · cases h
      · have hrest := ih h
        exact hrest
    · cases h
      exact .refl

end Compaction

theorem Cache.defragInternal_compacts {g : Graphs} {c c' : Cache}
    (h : c.defragInternal g = some c') : Compacts c.cells c'.cells := by
  unfold defragInternal at h
  dsimp only at h
  obtain ⟨d, hd, rfl⟩ := Option.map_eq_some_iff.mp h
  have hcompacts := Compaction.compact_compacts hd
  split <;> exact hcompacts

end ExpertStreaming.KvCache
