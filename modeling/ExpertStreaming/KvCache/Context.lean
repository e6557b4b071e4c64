import ExpertStreaming.KvCache.Sequences
import ExpertStreaming.KvCache.Slot
import ExpertStreaming.KvCache.Update
import ExpertStreaming.Lib.Trace
import Mathlib.Data.Finset.Card

/-! # The public calls on a context's cache

The calls of the library around the operations on the cells: what they check first, what
an ordered (Qwen4Exp) cache does differently, and decoding as far as the cache goes. The
token history an ordered cache keeps on the side is not modelled; a call is told when the
history refuses, with the message thrown.
-/
namespace ExpertStreaming.KvCache
open Lib

/-- The bytes a graph leaves in the tensors of the layers. -/
structure Written where
  k : (layer : Nat) → Tensor → Memory UInt8
  v : (layer : Nat) → Tensor → Memory UInt8
  s : (layer : Nat) → Tensor → Memory UInt8
  kr : (layer : Nat) → Tensor → Memory UInt8

/-- What the calls read from their context. -/
structure Env where
  graphs : Graphs
  /-- The graph of a micro-batch, or the code it fails with. -/
  compute : Cache → List BatchToken → Except Int Written
  /-- `n_seq_max`. -/
  seqMax : Nat
  /-- `llama_kv_cache_get_padding`. -/
  pad : Nat := 256

/-- How a call ends. -/
inductive Reply where
  | done
  | returned (code : Int)
  | threw (message : String)
  deriving DecidableEq

namespace Cache

/-! ## Copying a sequence -/

/-- The range as the context reads it: without an upper bound for a negative `p1`. -/
def Copied (p0 p1 pos : Int) : Prop := max 0 p0 ≤ pos ∧ (p1 < 0 ∨ pos < p1)

instance (p0 p1 pos : Int) : Decidable (Copied p0 p1 pos) := inferInstanceAs (Decidable (_ ∧ _))

def copiedOrders (c : Cache) (src p0 p1 : Int) : List Int :=
  (c.cells.filter fun cell => src ∈ cell.seqId ∧ Copied p0 p1 cell.pos).map (·.chronology)

/-- A row of the destination gives way to the row of the source with the same order. -/
def replaceRow (orders : List Int) (src dst : Int) (_ : Nat) (cell : Cell) : Swept :=
  if dst ∈ cell.seqId ∧ src ∉ cell.seqId ∧ cell.chronology ∈ orders then
    let left := cell.seqId.erase dst
    if left = ∅ then ⟨{ cell with seqId := ∅, pos := -1, delta := 0, order := -1 }, true, true⟩
    else ⟨{ cell with seqId := left }, false, false⟩
  else ⟨cell, false, false⟩

/-- The part of `llama_kv_cache_seq_cp` that only an ordered cache has. -/
def replaceOrders (c : Cache) (src dst p0 p1 : Int) : Cache :=
  if c.ordered then c.sweep (replaceRow (c.copiedOrders src p0 p1) src dst) else c

variable (env : Env)

def ownsSequence (seq : Int) : Bool := 0 ≤ seq && seq < env.seqMax

def copySequence (c : Cache) (src dst p0 p1 : Int) (side : Option String) :
    Option (Cache × Reply) :=
  if src = dst then some (c, .done)
  else if c.ordered && !(ownsSequence env src && ownsSequence env dst) then
    some (c, .threw "Qwen sequence copy has invalid sequence ownership")
  else
    match side with
    | some message => some (c, .threw message)
    | none =>
      if c.ordered && (c.copiedOrders src p0 p1).isEmpty then some (c, .done)
      else ((c.replaceOrders src dst p0 p1).seqCp src dst p0 p1).map fun c => (c, .done)

/-! ## Changing positions in an ordered cache -/

/-- What `llama_qwen4exp_transform_positions` collects before it touches the cache. -/
structure Plan where
  changes : List (Nat × Cell) := []
  /-- Rows whose payload is copied, with the rows they are copied to. -/
  copies : List (Nat × Nat) := []
  freeRows : List Nat
  usedDelta : Int := 0

/-- A change of positions, by an offset or by a divisor. -/
structure Transform where
  seq : Int
  first : Int
  last : Int
  delta : Int
  divisor : Int

def Transform.next (t : Transform) (pos : Int) : Int :=
  if t.divisor = 1 then pos + t.delta else pos.tdiv t.divisor

/-- What the sequences of a token that leaves the range of positions become. -/
def Transform.dropped (t : Transform) (cell : Cell) : Cell :=
  if cell.without t.seq = ∅ then { cell with seqId := ∅, pos := -1, delta := 0, order := -1 }
  else { cell with seqId := cell.without t.seq }

/-- The plan for one row: of a shared row the changed token gets a free row of its own. -/
def Transform.planRow (t : Transform) (cells : List Cell) (row : Nat) (plan : Plan) :
    Except String Plan :=
  let cell := cells.getD row {}
  if cell.pos < t.first ∨ t.last ≤ cell.pos ∨ (0 ≤ t.seq ∧ t.seq ∉ cell.seqId) then .ok plan
  else
    let next := t.next cell.pos
    let ropeDelta := cell.delta + next - cell.pos
    if posMax < next ∨ ropeDelta < posMin ∨ posMax < ropeDelta then
      .error "Qwen position transform overflows cache metadata"
    else if next = cell.pos then .ok plan
    else if next < 0 then
      .ok { plan with
        changes := plan.changes ++ [(row, t.dropped cell)]
        usedDelta := if (t.dropped cell).seqId = ∅ then plan.usedDelta - 1 else plan.usedDelta }
    else if 0 ≤ t.seq ∧ 1 < cell.seqId.card then
      match plan.freeRows with
      | [] => .error <| "Qwen position transform has insufficient free cache rows " ++
          "for shared-prefix isolation"
      | destination :: free =>
        .ok { changes := plan.changes ++
                [(destination, { cell with
                    pos := next, delta := ropeDelta, seqId := {t.seq}
                    src := (cells.getD destination {}).src }),
                 (row, { cell with seqId := cell.seqId.erase t.seq })]
              copies := plan.copies ++ [(row, destination)]
              freeRows := free
              usedDelta := plan.usedDelta + 1 }
    else
      .ok { plan with
        changes := plan.changes ++ [(row, { cell with pos := next, delta := ropeDelta })] }

def Transform.planRows (t : Transform) (cells : List Cell) : List Nat → Plan → Except String Plan
  | [], plan => .ok plan
  | row :: rest, plan =>
    match t.planRow cells row plan with
    | .error message => .error message
    | .ok plan => t.planRows cells rest plan

def freeRows (c : Cache) : List Nat :=
  (List.range c.size).filter fun row => (c.cell row).pos < 0 ∧ (c.cell row).isEmpty

def payloads (c : Cache) : List (Option Tensor) := c.k ++ c.v ++ c.kr

def tensorError (size : Nat) (t : Tensor) : Option String :=
  if t.extra || t.nbytes % size ≠ 0 then
    some "Qwen shared-prefix isolation has unsupported cache tensor layout"
  else if t.nbytes / size = 0 || t.nbytes / size % t.type.typeSize ≠ 0 then
    some "Qwen shared-prefix isolation has invalid packed row geometry"
  else none

def payloadError (c : Cache) : Option String :=
  if c.vTrans then some "Qwen shared-prefix isolation requires token-major V cache rows"
  else c.payloads.findSome? fun tensor => tensor.bind (tensorError c.size)

def copyPayload (size : Nat) (copies : List (Nat × Nat)) (_ : Nat) (t : Tensor) :
    Memory UInt8 :=
  (copies.foldl (fun t copy => t.copyRow (t.nbytes / size) copy.1 copy.2) t).bytes

def applyChanges (cells : List Cell) (changes : List (Nat × Cell)) : List Cell :=
  changes.foldl (fun cells change => cells.set change.1 change.2) cells

def padUp (x pad : Nat) : Nat := (x + pad - 1) / pad * pad

def applyPlan (c : Cache) (plan : Plan) : Cache :=
  { c with
    cells := applyChanges c.cells plan.changes
    used := (((c.used : Int) + plan.usedDelta) % 2 ^ 32).toNat
    k := mapBytes (copyPayload c.size plan.copies) c.k
    v := mapBytes (copyPayload c.size plan.copies) c.v
    kr := mapBytes (copyPayload c.size plan.copies) c.kr
    n := match plan.copies.getLast? with
      | none => c.n
      | some copy => min c.size (max c.n (padUp (copy.2 + 1) env.pad))
    hasShift := if plan.changes = [] then c.hasShift else true
    head := if plan.changes = [] then c.head else 0 }

def transformPositions (c : Cache) (seq p0 p1 delta divisor : Int)
    (side : Option String) : Cache × Reply :=
  let t : Transform := ⟨seq, max 0 p0, highest p1, delta, divisor⟩
  if divisor ≤ 0 then (c, .threw "Qwen position divisor must be positive")
  else if t.last ≤ t.first ∨ (divisor = 1 ∧ delta = 0) then (c, .done)
  else
    match t.planRows c.cells (List.range c.size) { freeRows := c.freeRows } with
    | .error message => (c, .threw message)
    | .ok plan =>
      match if plan.copies = [] then none else c.payloadError with
      | some message => (c, .threw message)
      | none =>
        match side with
        | some message => (c, .threw message)
        | none => (c.applyPlan env plan, .done)

def addPositions (c : Cache) (seq p0 p1 delta : Int) (side : Option String) :
    Option (Cache × Reply) :=
  if delta = 0 then some (c, .done)
  else if c.ordered then some (c.transformPositions env seq p0 p1 delta 1 side)
  else (c.seqAdd seq p0 p1 delta).map fun c => (c, .done)

def dividePositions (c : Cache) (seq p0 p1 d : Int) (side : Option String) :
    Option (Cache × Reply) :=
  if d = 1 then some (c, .done)
  else if c.ordered then some (c.transformPositions env seq p0 p1 0 d side)
  else (c.seqDiv seq p0 p1 d).map fun c => (c, .done)

/-! ## Decoding -/

/-- The loop of the padded `llama_kv_cache_cell_max`: every `pad`-th cell from the end. -/
def scanPadded (c : Cache) (pad : Nat) : (fuel i last : Nat) → Nat
  | 0, _, _ => 0
  | fuel + 1, i, last =>
    if i = 0 then 0
    else if (c.cell (i - 1)).occupied then i + lastOccupied ((c.cells.take last).drop i)
    else scanPadded c pad fuel (i - pad) i

def cellMaxPadded (c : Cache) (pad : Nat) : Nat :=
  if c.ordered then c.cellMax else c.scanPadded pad (c.size + 1) c.size c.size

/-- How `llama_decode_internal` settles the cache and finds room for one micro-batch. -/
def decodeSlot (c : Cache) (batch : List BatchToken) : Option (Cache × Reply) :=
  if batch = [] then some (c, .returned (-1))
  else
    (c.update env.graphs).map fun settled =>
      if settled.2 ≠ 0 then (settled.1, .returned settled.2)
      else
        let c := settled.1
        let c := if c.used + 2 * batch.length < c.head then { c with head := 0 } else c
        let slot := c.findSlot batch
        if slot.2 then
          let c := slot.1
          if c.recurrent then (c, .done)
          else
            ({ c with
              n := min c.size (max env.pad (padUp (c.cellMaxPadded env.pad) env.pad)) }, .done)
        else (slot.1, .returned 1)

/-- The cache when the graph of `n` tokens has run: the head moves behind them. -/
def computed (c : Cache) (n : Nat) (w : Written) : Cache :=
  { c with
    head := if c.size ≤ c.head + n then 0 else c.head + n
    k := mapBytes w.k c.k
    v := mapBytes w.v c.v
    s := mapBytes w.s c.s
    kr := mapBytes w.kr c.kr }

/-- `llama_decode_internal` for one micro-batch; a failure comes when the rows are taken already.
-/
def decode (c : Cache) (batch : List BatchToken) (side : Option String) :
    Option (Cache × Reply) :=
  (c.decodeSlot env batch).map fun r =>
    if r.2 = .done then
      match side with
      | some message => (r.1, .threw message)
      | none =>
        match env.compute r.1 batch with
        | .error code => (r.1, .returned code)
        | .ok w => (r.1.computed batch.length w, .done)
    else r

end Cache

/-! ## The machine -/

/-- A call on the cache of a context. -/
inductive Call where
  | decode (batch : List BatchToken) (side : Option String)
  | seqRm (seq p0 p1 : Int)
  | seqCp (src dst p0 p1 : Int) (side : Option String)
  | seqKeep (seq : Int)
  | seqAdd (seq p0 p1 delta : Int) (side : Option String)
  | seqDiv (seq p0 p1 d : Int) (side : Option String)
  | clear
  | defrag
  | update
  deriving DecidableEq

/-- What a call does; `none` when an assertion ends the process. -/
def call (env : Env) (c : Cache) : Call → Option (Cache × Reply)
  | .decode batch side => c.decode env batch side
  | .seqRm seq p0 p1 =>
    let r := c.seqRm seq p0 p1
    some (r.1, if r.2 then .done else .returned 0)
  | .seqCp src dst p0 p1 side => c.copySequence env src dst p0 p1 side
  | .seqKeep seq => some (c.seqKeep seq, .done)
  | .seqAdd seq p0 p1 delta side => c.addPositions env seq p0 p1 delta side
  | .seqDiv seq p0 p1 d side => c.dividePositions env seq p0 p1 d side
  | .clear => some (c.clear, .done)
  | .defrag => some (c.defrag, .done)
  | .update => (c.update env.graphs).map fun r => (r.1, if r.2 = 0 then .done else .returned r.2)

def Step (env : Env) (c : Cache) (label : Call × Reply) (c' : Cache) : Prop :=
  call env c label.1 = some (c', label.2)

structure Cache.Fresh (c : Cache) : Prop where
  cells : c.cells = (List.range c.size).map fun i =>
    { src := if c.recurrent || c.hybrid then i else 0 }
  head : c.head = 0
  used : c.used = 0
  hasShift : c.hasShift = false
  doDefrag : c.doDefrag = false
  doCopy : c.doCopy = false
  /-- The size is a `uint32_t`. -/
  size : c.size ≤ u32Max

end ExpertStreaming.KvCache
