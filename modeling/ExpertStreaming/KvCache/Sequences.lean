import ExpertStreaming.KvCache.State

/-! # Sequence operations on the cells

`llama_kv_cache_clear`, `seq_rm`, `seq_cp`, `seq_keep`, `seq_add` and `seq_div` as they act on
a cache, without the checks of the public calls around them. A failed assertion ends the
process and is `none`.
-/
namespace ExpertStreaming.KvCache
open Lib

/-- `p0` as the operations read it: a negative bound is the first position. -/
def lowest (p0 : Int) : Int := if p0 < 0 then 0 else p0

/-- `p1` as the operations read it: a negative bound is the largest position. -/
def highest (p1 : Int) : Int := if p1 < 0 then posMax else p1

def InRange (p0 p1 pos : Int) : Prop := lowest p0 ≤ pos ∧ pos < highest p1

instance (p0 p1 pos : Int) : Decidable (InRange p0 p1 pos) := inferInstanceAs (Decidable (_ ∧ _))

theorem lowest_nonneg (p0 : Int) : 0 ≤ lowest p0 := by
  unfold lowest
  split <;> omega

theorem InRange.nonneg {p0 p1 pos} (h : InRange p0 p1 pos) : 0 ≤ pos :=
  Int.le_trans (lowest_nonneg p0) h.1

namespace Cache

variable (c : Cache)

def clear : Cache :=
  let wipe := List.map (Option.map fun t : Tensor => { t with bytes := fun _ => 0 })
  { c with
    cells := c.cells.mapIdx fun i cell =>
      { cell with
        pos := -1, order := -1, delta := if c.ordered then 0 else cell.delta, src := i, seqId := ∅ }
    head := 0
    used := 0
    hasShift := if c.ordered then false else c.hasShift
    k := wipe c.k
    v := wipe c.v
    s := wipe c.s
    kr := wipe c.kr }

/-! ## Removal -/

/-- A freed row forgets its token; with recurrent states its source is reset as well. -/
def freeRow (i : Nat) (cell : Cell) : Cell :=
  { cell with pos := -1, seqId := ∅, src := if c.hasQnextState then i else cell.src }

def rmRow (seq p0 p1 : Int) (i : Nat) (cell : Cell) : Swept :=
  if InRange p0 p1 cell.pos ∧ (seq < 0 ∨ seq ∈ cell.seqId) then
    if cell.without seq = ∅ then ⟨c.freeRow i cell, true, decide (0 ≤ cell.pos)⟩
    else ⟨{ cell with seqId := cell.without seq }, false, false⟩
  else ⟨cell, false, false⟩

def lowerHead (head : Nat) : Option Nat → Nat
  | none => head
  | some row => if row < head then row else head

/-- Whether the states of a recurrent cache allow the removal: they cannot be cut. -/
def recurrentAllows (seq p0 p1 : Int) : Bool :=
  if 0 ≤ seq then
    seq < c.size &&
      !((0 < p0 && p0 ≤ (c.cell seq.toNat).pos) || (0 < p1 && p1 ≤ (c.cell seq.toNat).pos))
  else !(p0 ≠ p1 && (p0 ≠ 0 || p1 ≠ posMax))

def seqRm (seq p0 p1 : Int) : Cache × Bool :=
  if c.recurrent && !c.recurrentAllows seq (lowest p0) (highest p1) then (c, false)
  else
    let f := c.rmRow seq p0 p1
    ({ c.sweep f with head := lowerHead c.head (c.firstFreed f) }, true)

/-! ## Copying -/

/-- `seq_cp` on a recurrent cache: the destination's state is to be copied. -/
def seqCpRecurrent (src dst : Int) : Option Cache :=
  if 0 ≤ dst ∧ dst < c.size ∧ 0 ≤ src ∧ src < c.size then
    let origin := (c.cell src.toNat).src
    if origin < c.size then
      let cells := c.cells.modify dst.toNat fun cell =>
        { cell with
          src := origin
          seqId := if (origin : Int) ∈ (c.cell origin).seqId then insert dst cell.seqId
            else cell.seqId.erase dst
          pos := (c.cell origin).pos }
      some { c with cells := cells, doCopy := true }
    else none
  else some c

def copiesState (src dst : Int) : Bool :=
  c.hasQnextState && c.qnextSeqIdInRange dst && c.qnextSeqIdInRange src &&
    decide (dst < c.size) && decide (src < c.size)

/-- The sequence whose rows `seq_cp` shares: recording a copy of the state replaces `seq_id_src`
by the slot the state comes from. -/
def rowSource (src dst : Int) : Int :=
  if c.copiesState src dst then (c.cell src.toNat).src else src

def recordCopy (src dst : Int) : Cache :=
  { c with
    cells := c.cells.modify dst.toNat fun cell => { cell with src := (c.cell src.toNat).src }
    doCopy := true }

def shareRows (src dst p0 p1 : Int) : Cache :=
  { c with
    cells := c.cells.map fun cell =>
      if src ∈ cell.seqId ∧ InRange p0 p1 cell.pos then { cell with seqId := insert dst cell.seqId }
      else cell
    head := 0 }

def seqCp (src dst p0 p1 : Int) : Option Cache :=
  if c.recurrent then c.seqCpRecurrent src dst
  else if c.copiesState src dst then
    if (c.cell src.toNat).src < c.size then
      some ((c.recordCopy src dst).shareRows (c.rowSource src dst) dst p0 p1)
    else none
  else some (c.shareRows src dst p0 p1)

/-! ## Keeping one sequence -/

def keepRow (seq : Int) (i : Nat) (cell : Cell) : Swept :=
  if seq ∈ cell.seqId then ⟨{ cell with seqId := {seq} }, false, false⟩
  else ⟨c.freeRow i cell, true, decide (0 ≤ cell.pos)⟩

def seqKeep (seq : Int) : Cache :=
  let f := c.keepRow seq
  { c.sweep f with head := lowerHead c.head (c.firstFreed f) }

/-! ## Position changes -/

def transforms (seq p0 p1 : Int) (cell : Cell) : Bool :=
  ((c.ordered && decide (seq < 0)) || decide (seq ∈ cell.seqId)) && decide (InRange p0 p1 cell.pos)

/-- The position change of a recurrent cache: the state keeps one position. -/
def moveRecurrent (seq p0 p1 : Int) (f : Int → Int) : Cache :=
  if 0 ≤ seq ∧ seq < c.size then
    { c with
      cells := c.cells.modify seq.toNat fun cell =>
        if seq ∈ cell.seqId ∧ InRange p0 p1 cell.pos then { cell with pos := f cell.pos }
        else cell }
  else c

/-- `seq_add` on one row; a token moved before the beginning is dropped. -/
def addRow (seq p0 p1 delta : Int) (_ : Nat) (cell : Cell) : Swept :=
  if c.transforms seq p0 p1 cell then
    if cell.pos + delta < 0 then
      ⟨{ cell with delta := cell.delta + delta, pos := -1, seqId := ∅ }, true, !cell.isEmpty⟩
    else ⟨{ cell with pos := cell.pos + delta, delta := cell.delta + delta }, false, false⟩
  else ⟨cell, false, false⟩

def seqAdd (seq p0 p1 delta : Int) : Option Cache :=
  if c.positionStrict then none
  else if lowest p0 = highest p1 then some c
  else if c.recurrent then some (c.moveRecurrent seq p0 p1 (· + delta))
  else
    let f := c.addRow seq p0 p1 delta
    some { c.sweep f with
      hasShift := c.hasShift || c.cells.any (c.transforms seq p0 p1)
      head := (c.firstFreed f).getD 0 }

/-- Whether the position of a row is divided. -/
def divides (seq p0 p1 : Int) : Bool :=
  if c.recurrent then
    0 ≤ seq && (c.cells[seq.toNat]?).any fun cell => seq ∈ cell.seqId ∧ InRange p0 p1 cell.pos
  else c.cells.any (c.transforms seq p0 p1)

/-- `llama_kv_cache_seq_div`; dividing a position by zero ends the process. -/
def seqDiv (seq p0 p1 d : Int) : Option Cache :=
  if c.positionStrict then none
  else if lowest p0 = highest p1 then some c
  else if d = 0 ∧ c.divides seq p0 p1 then none
  else if c.recurrent then some (c.moveRecurrent seq p0 p1 (·.tdiv d))
  else
    some { c with
      cells := c.cells.map fun cell =>
        if c.transforms seq p0 p1 cell then
          { cell with pos := cell.pos.tdiv d, delta := cell.delta + (cell.pos.tdiv d - cell.pos) }
        else cell
      hasShift := c.hasShift || c.cells.any (c.transforms seq p0 p1) }

end Cache

end ExpertStreaming.KvCache
