import ExpertStreaming.KvCache.State
import Mathlib.Data.Finset.Dedup
import Mathlib.Data.Finset.Lattice.Basic
import Mathlib.Logic.Function.Basic

/-! # Finding a slot for a batch

`llama_kv_cache_find_slot`. A batch takes consecutive free rows, searched from the head
and around. In an ordered cache every token has one sequence and is given the order after
the last one its sequence holds. The search is a loop with no bound in the source, over 32-bit sums;
here it has one that it does not reach where the sums fit. A head past the end makes the counter of
tested rows wrap, and the search gives up early. A free row may still name a sequence, and keeps it.
-/
namespace ExpertStreaming.KvCache
open Lib List

structure BatchToken where
  pos : Int
  seqs : List Int
  token : Nat := 0
  /-- Whether the output for this token is asked for. -/
  logits : Bool := true
  deriving DecidableEq

namespace Cache

/-! ## The search -/

def blocked (cells : List Cell) (head n : Nat) : Option Nat :=
  (List.range n).find? fun i => decide (0 ≤ (cells.getD (head + i) {}).pos)

/-- The loop of the search: the head it ends with, and whether the rows there are free. Where
`head + n` wraps, the source reads past the rows; the model fails there. -/
def searchSlot (cells : List Cell) (n : Nat) : (fuel head tested : Nat) → Nat × Bool
  | 0, head, _ => (head, false)
  | fuel + 1, head, tested =>
    if cells.length < (head + n) % 2 ^ 32 then
      searchSlot cells n fuel 0 ((tested + u32Sub cells.length head) % 2 ^ 32)
    else if cells.length < head + n then (head, false)
    else
      match blocked cells head n with
      | none => (head, true)
      | some i =>
        let tested := (tested + (i + 1)) % 2 ^ 32
        if cells.length ≤ tested then (head + (i + 1), false)
        else searchSlot cells n fuel (head + (i + 1)) tested

/-- A row is tested in at most two rounds, one of which may only wrap the head. -/
def searchRounds (cells : List Cell) : Nat := 2 * cells.length + 2

theorem blocked_eq_none {cells head n} (h : blocked cells head n = none) {i} (hi : i < n) :
    (cells.getD (head + i) {}).pos < 0 := by
  have := find?_eq_none.mp h i (mem_range.mpr hi)
  simpa using this

def FreeAt (cells : List Cell) (n row : Nat) : Prop :=
  row + n ≤ cells.length ∧ ∀ i < n, (cells.getD (row + i) {}).pos < 0

section

variable {cells : List Cell} {n start head tested row : Nat}

theorem blocked_spec {i} (h : blocked cells head n = some i) :
    i < n ∧ 0 ≤ (cells.getD (head + i) {}).pos := by
  have hmem := mem_of_find?_eq_some h
  have hpos := find?_some h
  exact ⟨mem_range.mp hmem, by simpa using hpos⟩

theorem searchSlot_found {fuel} (h : searchSlot cells n fuel head tested = (row, true)) :
    FreeAt cells n row := by
  induction fuel generalizing head tested with
  | zero => cases h
  | succ fuel ih =>
    unfold searchSlot at h
    split at h
    · exact ih h
    split at h
    · cases h
    next hfits =>
    split at h
    next hfree =>
      cases h
      exact ⟨Nat.le_of_not_lt hfits, fun i hi => blocked_eq_none hfree hi⟩
    · dsimp only at h
      split at h
      · cases h
      · exact ih h

end

/-! ## Orders -/

variable (c : Cache)

def lastOrder (seq : Int) : Int :=
  (((c.cells.take c.occupiedEnd).filter fun cell => 0 ≤ cell.pos ∧ seq ∈ cell.seqId).map
    (·.chronology)).foldl max (-1)

/-- The order of a sequence's next token: the first one starts at its position. -/
def nextOrder (last pos : Int) : Int := if last < 0 then pos else last + 1

def ordersFit (batch : List BatchToken) : Bool :=
  batch.all fun token => token.seqs.all fun seq =>
    c.lastOrder seq ≤ orderMax - 1 - batch.length

/-! ## Placing the tokens -/

def placeToken (ordered : Bool) (order : Int) (token : BatchToken) (cell : Cell) : Cell :=
  { cell with
    delta := if ordered then 0 else cell.delta
    order := order
    pos := token.pos
    seqId := cell.seqId ∪ token.seqs.toFinset }

/-- The order a token gets; `last` is the last order of each sequence so far. -/
def tokenOrder (ordered : Bool) (last : Int → Int) (token : BatchToken) : Int :=
  if ordered then nextOrder (last (token.seqs.headD 0)) token.pos else -1

def placeBatch (ordered : Bool) : (last : Int → Int) → (row : Nat) → List BatchToken →
    List Cell → List Cell
  | _, _, [], cells => cells
  | last, row, token :: rest, cells =>
    let order := tokenOrder ordered last token
    placeBatch ordered (if ordered then Function.update last (token.seqs.headD 0) order else last)
      (row + 1) rest (cells.set row (placeToken ordered order token (cells.getD row {})))

section

variable {ordered : Bool} {last : Int → Int} {row : Nat} {batch : List BatchToken}
  {cells : List Cell}

@[simp] theorem length_placeBatch :
    (placeBatch ordered last row batch cells).length = cells.length := by
  induction batch generalizing last row cells with
  | nil => rfl
  | cons token rest ih =>
    unfold placeBatch
    rw [ih, length_set]

theorem placeBatch_beside {i} (h : i < row ∨ row + batch.length ≤ i) :
    (placeBatch ordered last row batch cells)[i]? = cells[i]? := by
  induction batch generalizing last row cells with
  | nil => rfl
  | cons token rest ih =>
    rw [length_cons] at h
    unfold placeBatch
    rw [ih (by omega), getElem?_set_ne (by omega)]

theorem placeBatch_row (ordered : Bool) (last : Int → Int) {k token}
    (hk : batch[k]? = some token) (hrow : row + k < cells.length) :
    ∃ order, (placeBatch ordered last row batch cells)[row + k]? =
      some (placeToken ordered order token (cells.getD (row + k) {})) := by
  induction batch generalizing last row k cells with
  | nil => cases hk
  | cons first rest ih =>
    unfold placeBatch
    cases k with
    | zero =>
      cases hk
      rw [placeBatch_beside (.inl (by omega)), Nat.add_zero,
        getElem?_set_self (by simpa using hrow)]
      exact ⟨_, rfl⟩
    | succ k =>
      rw [show row + (k + 1) = row + 1 + k by omega] at hrow ⊢
      refine (ih _ hk (by rwa [length_set])).imp fun order hplaced => hplaced.trans ?_
      rw [getD_eq_getElem?_getD, getElem?_set_ne (by omega),
        ← getD_eq_getElem?_getD]

end

/-- What `find_slot` does to a recurrent cache: the position of each sequence is set. -/
def findSlotRecurrent (batch : List BatchToken) : Cache × Bool :=
  let ids : List (Int × Int) :=
    batch.flatMap fun token => token.seqs.map fun seq => (seq, token.pos)
  let valid := ids.takeWhile fun id => decide (0 ≤ id.1 ∧ id.1 < (c.size : Int))
  let c' := valid.foldl (fun c id =>
    { c with
      used := if (c.cell id.1.toNat).pos < 0 ∧ 0 ≤ id.2 then c.used + 1 else c.used
      cells := c.cells.modify id.1.toNat fun cell => { cell with pos := id.2 } }) c
  if valid.length < ids.length then (c', false)
  else
    let first : Int := valid.foldl (fun m id => min m id.1) ((c.size : Int) - 1)
    let last : Int := valid.foldl (fun m id => max m id.1) 0
    ({ c' with head := first.toNat, n := (last - first + 1).toNat }, first ≤ last)

def findSlot (batch : List BatchToken) : Cache × Bool :=
  if c.recurrent then c.findSlotRecurrent batch
  else if c.size < batch.length then (c, false)
  else
    match searchSlot c.cells batch.length (searchRounds c.cells) c.head 0 with
    | (head, false) => ({ c with head := head }, false)
    | (head, true) =>
      if c.ordered && !(batch.all fun token => token.seqs.length = 1) then
        ({ c with head := head }, false)
      else if c.ordered && !c.ordersFit batch then ({ c with head := head }, false)
      else
        ({ c with
          head := head
          cells := placeBatch c.ordered c.lastOrder head batch c.cells
          used := (c.used + batch.length) % 2 ^ 32 }, true)

theorem findSlot_cases {c : Cache} (hplain : c.recurrent = false) (batch : List BatchToken) :
    (∃ head, c.findSlot batch = ({ c with head := head }, false)) ∨
    ∃ head, head + batch.length ≤ c.cells.length ∧
      (∀ i < batch.length, (c.cells.getD (head + i) {}).pos < 0) ∧
      (c.ordered = true → ∀ token ∈ batch, token.seqs.length = 1) ∧
      c.findSlot batch =
        ({ c with
          head := head
          cells := placeBatch c.ordered c.lastOrder head batch c.cells
          used := (c.used + batch.length) % 2 ^ 32 }, true) := by
  unfold findSlot
  rw [if_neg (by simp [hplain])]
  split
  · exact .inl ⟨c.head, rfl⟩
  split
  next head _ => exact .inl ⟨head, rfl⟩
  next head hsearch =>
  split
  · exact .inl ⟨head, rfl⟩
  next hsingle =>
  split
  · exact .inl ⟨head, rfl⟩
  · obtain ⟨hfits, hfree⟩ := searchSlot_found hsearch
    refine .inr ⟨head, hfits, hfree, fun hordered => ?_, rfl⟩
    simpa [hordered] using hsingle

end Cache

end ExpertStreaming.KvCache
