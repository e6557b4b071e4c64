import ExpertStreaming.Lib.Memory
import ExpertStreaming.Lib.Word
import Mathlib.Data.Finset.Basic
import Mathlib.Data.List.Basic

/-! # The KV cache: data

A cache is an array of cells, one for each attention row, with the tensors that hold the
rows. A cell names the sequences its token belongs to. In a hybrid cache the recurrent
layers keep one state for each sequence slot, and the pending copy into slot `d` is
recorded in the `src` field of cell `d`, whatever token the row `d` holds.

`size` and the length of `cells` are set together when a cache is created, so the size is
the length here. A cell's position is `-1` when the row is free.
-/
namespace ExpertStreaming.KvCache
open Lib

def posMax : Int := 2 ^ 31 - 1

def posMin : Int := -2 ^ 31

/-- `std::numeric_limits<int64_t>::max()`. -/
def orderMax : Int := 2 ^ 63 - 1

structure Cell where
  pos : Int := -1
  delta : Int := 0
  /-- `qwen4exp_order`: the token's place in time, whatever its rotary position. -/
  order : Int := -1
  /-- The slot whose recurrent state the slot of this index is to receive. -/
  src : Nat := 0
  seqId : Finset Int := ∅
  deriving DecidableEq

namespace Cell

variable (cell : Cell)

def isEmpty : Bool := cell.seqId = ∅

/-- The order of a token; one that was never given an order has its position. -/
def chronology : Int := if 0 ≤ cell.order then cell.order else cell.pos

/-- The sequences left when one of them is taken away, or all of them for a negative id. -/
def without (seq : Int) : Finset Int :=
  if seq < 0 then ∅ else cell.seqId.erase seq

def occupied : Bool := 0 ≤ cell.pos && !cell.isEmpty

theorem chronology_congr {a b : Cell} (hpos : b.pos = a.pos) (horder : b.order = a.order) :
    b.chronology = a.chronology := by
  unfold chronology
  rw [hpos, horder]

theorem without_subset (seq : Int) : cell.without seq ⊆ cell.seqId := by
  unfold without
  split
  · exact Finset.empty_subset _
  · exact Finset.erase_subset _ _

@[simp] theorem isEmpty_iff {cell : Cell} : cell.isEmpty = true ↔ cell.seqId = ∅ := by
  simp [isEmpty]

theorem isEmpty_eq_false {cell : Cell} : cell.isEmpty = false ↔ cell.seqId ≠ ∅ := by
  simp [isEmpty]

theorem occupied_iff {cell : Cell} : cell.occupied = true ↔ 0 ≤ cell.pos ∧ cell.seqId ≠ ∅ := by
  simp [occupied, isEmpty_eq_false]

end Cell

/-! ## Tensors -/

/-- An element type with the traits `ggml_row_size` and the padding of heads read. -/
structure GgmlType where
  id : Nat
  blckSize : Nat
  typeSize : Nat
  rowMeta : Nat := 0
  isQuantized : Bool := false
  isTurbo : Bool := false
  deriving DecidableEq

def GgmlType.rowSize (type : GgmlType) (ne : Nat) : Nat :=
  type.rowMeta + type.typeSize * ne / type.blckSize

/-- A contiguous tensor of one or two dimensions; a flat one has `ne1 = 1`. -/
structure Tensor where
  type : GgmlType
  ne0 : Nat
  ne1 : Nat := 1
  /-- Whether the tensor is split over devices. -/
  extra : Bool := false
  /-- The type of the buffer it lives in. -/
  buft : Nat := 0
  bytes : Memory UInt8

namespace Tensor

variable (t : Tensor)

/-- `nb[1]`. -/
def nb1 : Nat := t.type.rowSize t.ne0

def nbytes : Nat := t.ne1 * t.nb1

def row (width i : Nat) : List UInt8 := t.bytes.read (i * width) width

def copyRow (width source destination : Nat) : Tensor :=
  { t with bytes := t.bytes.write (destination * width) (t.row width source) }

/-- `ggml_get_rows` written back in place: row `i` of `width` bytes becomes the old row
`ids i`. -/
def gatherRows (width : Nat) (ids : Nat → Nat) : Tensor :=
  { t with bytes := fun a =>
      if a < t.nbytes then t.bytes (ids (a / width) * width + a % width) else t.bytes a }

end Tensor

/-- The tensors of the layers after a computation that writes some of their bytes. -/
def mapBytes (f : Nat → Tensor → Memory UInt8) (tensors : List (Option Tensor)) :
    List (Option Tensor) :=
  tensors.mapIdx fun layer tensor => tensor.map fun t => { t with bytes := f layer t }

/-! ## Caches -/

/-- `llama_kv_cache` without its checkpoints. -/
structure Cache where
  hasShift : Bool := false
  doDefrag : Bool := false
  doCopy : Bool := false
  recurrent : Bool := false
  hybrid : Bool := false
  /-- `qwen4exp_ordered`. -/
  ordered : Bool := false
  vTrans : Bool := false
  /-- `s_l_position_strict`. -/
  positionStrict : Bool := false
  head : Nat := 0
  used : Nat := 0
  n : Nat := 0
  typeK : GgmlType
  typeV : GgmlType
  cells : List Cell
  /-- The tensors of the layers: keys, values, recurrent states and indexer keys. -/
  k : List (Option Tensor) := []
  v : List (Option Tensor) := []
  s : List (Option Tensor) := []
  kr : List (Option Tensor) := []
  savePerStepSsm : Bool := false
  /-- Whether any of the split or replicated tensor lists is in use. -/
  split : Bool := false

namespace Cache

variable (c : Cache)

def size : Nat := c.cells.length

def cell (i : Nat) : Cell := c.cells.getD i {}

/-- `llama_kv_qnext_state_slots`: every recurrent layer has the same number of slots. -/
def qnextStateSlots : Nat :=
  c.s.foldl (fun slots tensor => match tensor with
    | none => slots
    | some t => if slots = 0 then t.ne1 else slots) 0

def hasQnextState : Bool := !c.positionStrict && 0 < c.qnextStateSlots

def qnextSeqIdInRange (seq : Int) : Bool :=
  0 < c.qnextStateSlots && 0 ≤ seq && seq < c.qnextStateSlots

/-! ## Scans over the cells -/

/-- The prefix of the cells that holds the first `remaining` occupied ones. -/
def scanOccupied : Nat → List Cell → Nat
  | 0, _ => 0
  | _ + 1, [] => 0
  | remaining + 1, cell :: rest =>
    1 + scanOccupied (if cell.occupied then remaining else remaining + 1) rest

def occupiedEnd : Nat :=
  if c.ordered then scanOccupied c.used c.cells else c.size

/-- One past the last occupied cell of a list, counting from the front. -/
def lastOccupied (cells : List Cell) : Nat :=
  cells.length - (cells.reverse.takeWhile fun cell => !cell.occupied).length

def cellMax : Nat := lastOccupied (c.cells.take c.occupiedEnd)

/-! ## One pass over the rows

The sequence operations visit every row once and decide it from its own cell. They keep
count of the cells that fall free and remember the first row freed. -/

/-- What a pass does with one row. -/
structure Swept where
  cell : Cell
  /-- The row is now free; the first such row may become the head. -/
  freed : Bool := false
  /-- `used` is decremented. -/
  counted : Bool := false

/-- The rows after a pass, with `used` decremented once for each row counted. -/
def sweep (f : Nat → Cell → Swept) : Cache :=
  { c with
    cells := c.cells.mapIdx fun i cell => (f i cell).cell
    used := u32Sub c.used ((c.cells.mapIdx fun i cell => (f i cell).counted).count true) }

def firstFreed (f : Nat → Cell → Swept) : Option Nat :=
  (c.cells.mapIdx fun i cell => (f i cell).freed).findIdx? id

theorem getElem?_sweep (f : Nat → Cell → Swept) (i : Nat) :
    (c.sweep f).cells[i]? = c.cells[i]?.map fun cell => (f i cell).cell := by
  simp [sweep]

@[simp] theorem length_sweep (f : Nat → Cell → Swept) :
    (c.sweep f).cells.length = c.cells.length := by
  simp [sweep]

theorem countP_mapIdx_sweep {cells : List Cell} {f : Nat → Cell → Swept} {p : Cell → Bool}
    (h : ∀ i cell, cells[i]? = some cell →
      (p cell = true ↔ p (f i cell).cell = true ∨ (f i cell).counted = true) ∧
        ¬ (p (f i cell).cell = true ∧ (f i cell).counted = true)) :
    (cells.mapIdx fun i cell => (f i cell).cell).countP p +
      (cells.mapIdx fun i cell => (f i cell).counted).count true = cells.countP p := by
  induction cells generalizing f with
  | nil => rfl
  | cons cell rest ih =>
    have hrest := ih (f := fun i => f (i + 1)) fun i x hx => h (i + 1) x hx
    obtain ⟨hiff, hboth⟩ := h 0 cell rfl
    simp only [List.mapIdx_cons, List.countP_cons, List.count_cons]
    by_cases hp : p cell = true
    · rcases hiff.mp hp with hkept | hcounted
      · have hnot : (f 0 cell).counted = false :=
          Bool.eq_false_of_not_eq_true fun hc => hboth ⟨hkept, hc⟩
        simp only [hp, hkept, hnot]
        simp
        omega
      · have hnot : p (f 0 cell).cell = false :=
          Bool.eq_false_of_not_eq_true fun hc => hboth ⟨hc, hcounted⟩
        simp only [hp, hnot, hcounted]
        simp
        omega
    · have hnot : p (f 0 cell).cell = false ∧ (f 0 cell).counted = false :=
        ⟨Bool.eq_false_of_not_eq_true fun hc => hp (hiff.mpr (.inl hc)),
          Bool.eq_false_of_not_eq_true fun hc => hp (hiff.mpr (.inr hc))⟩
      simp only [hp, hnot.1, hnot.2]
      simp
      omega

end Cache

end ExpertStreaming.KvCache
