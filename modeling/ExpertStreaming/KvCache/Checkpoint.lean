import ExpertStreaming.KvCache.Agreement

/-! # The checkpoint bank

A context that speculates keeps one checkpoint for each sequence. A checkpoint is the recurrent
row of the sequence in every layer and the position its tokens had reached; the attention rows
stay where they are. Going back writes the rows and removes the tokens behind the position. The
GPU bank keeps rows in shadow tensors. The CPU bank keeps the state that
`llama_state_seq_get_data` writes with `PARTIAL_ONLY`, which for a Qwen context has the token
history of the sequence in it.

A purely recurrent cache has none of the tensors the bank saves, so its branches are left out.
The sizes compared against the limit of the CPU bank leave out the headers, which are the same on
both sides.
-/
namespace ExpertStreaming.KvCache
open Lib

namespace Cache

def checkpointPosition (c : Cache) (seq : Int) : Int :=
  ((c.cells.filter fun cell => seq ∈ cell.seqId).map (·.pos)).foldl max (-1) + 1

/-- The recurrent row of a slot in every layer that has one. -/
def stateRows (c : Cache) (slot : Nat) : List (Option (List UInt8)) :=
  c.s.map (Option.map fun t => t.row t.nb1 slot)

/-- Whether `llama_checkpoint_rows` finds a row in every recurrent layer, and a layer. -/
def hasStateRows (c : Cache) (seq : Int) : Bool :=
  c.s.any Option.isSome && c.s.all fun tensor => tensor.all fun t => decide (seq < t.ne1)

def writeStateRows (c : Cache) (slot : Nat) (rows : List (Option (List UInt8))) : Cache :=
  { c with
    s := mapBytes (fun layer t =>
      t.bytes.write (slot * t.nb1) ((rows.getD layer none).getD [])) c.s }

def stateRowBytes (c : Cache) : Nat :=
  (c.s.map fun tensor => tensor.elim 0 Tensor.nb1).sum

end Cache

def History.tokens (h : History) (seq : Int) : OrdMap Int (Int × Nat) :=
  ((h.sequences.find? seq).getD {}).tokens

/-- `restore_history` after `reset`; `none` when it throws or cannot allocate. -/
def History.restore (h : History) (seq : Int) (tokens : OrdMap Int (Int × Nat)) (refused : Bool) :
    Option History :=
  if refused then none
  else if tokens.isEmpty then some { sequences := h.sequences.erase seq }
  else if tokens.toList.any fun b => decide (b.1 < 0 ∨ b.1 = orderMax ∨ b.2.1 < 0) then none
  else some { sequences := (h.sequences.erase seq).insert seq (Stream.rebuild tokens) }

/-! ## The state of one sequence -/

/-- What is written of a sequence with `LLAMA_STATE_SEQ_FLAGS_PARTIAL_ONLY`. -/
structure PartialState where
  /-- Position and order of the attention cells. -/
  cells : List (Int × Int) := []
  /-- The last position, written by a position-strict cache only. -/
  statePos : Int := -1
  /-- The recurrent rows, if the slot they come from exists. -/
  rows : Option (List (Option (List UInt8))) := none
  history : OrdMap Int (Int × Nat) := .empty

/-- `sequence_snapshot` with the row of the shadow tensors that belongs to it. -/
structure Snapshot where
  saved : Bool := false
  nPast : Int := 0
  shadow : List (Option (List UInt8)) := []
  cpuData : Option PartialState := none

inductive SpecMode where
  | none
  | gpuFallback
  | cpu
  deriving DecidableEq

/-- `llama_spec_ckpt_restore_result` as the bank returns it. -/
inductive RestoreResult where
  | failed
  | baseReplayRequired
  deriving DecidableEq

/-- What the calls of a speculating context read. -/
structure SpecEnv extends Env where
  /-- `n_ctx_max`. -/
  nCtxMax : Nat

/-- A context with its bank. The history of a context that is not ordered stays empty. -/
structure Checkpointed where
  state : Qwen
  mode : SpecMode
  /-- `ckpt.sequences`. -/
  sequences : List Snapshot

namespace Snapshot

def delete (snapshot : Snapshot) : Snapshot := { snapshot with saved := false, cpuData := none }

end Snapshot

def checkpointDelete (bank : List Snapshot) (seq : Int) : List Snapshot :=
  bank.mapIdx fun i snapshot => if seq < 0 ∨ (i : Int) = seq then snapshot.delete else snapshot

def checkpointInvalidate (bank : List Snapshot) (seq p0 p1 : Int) : List Snapshot :=
  bank.mapIdx fun i snapshot =>
    if (seq < 0 ∨ (i : Int) = seq) ∧ snapshot.saved ∧ p0 < snapshot.nPast ∧ p1 ≠ 0 then
      snapshot.delete
    else snapshot

namespace Checkpointed

abbrev cache (b : Checkpointed) : Cache := b.state.cache

/-! ## The calls of the context -/

/-- The bank after a call that changes positions; `still` when it has nothing to do. -/
def bankMoved (b : Checkpointed) (seq p0 p1 : Int) (still : Bool) (reply : Reply) :
    List Snapshot :=
  if reply = .done ∧ still = false ∧ (b.cache.ordered = true → max 0 p0 < highest p1) then
    checkpointInvalidate b.sequences seq p0 p1
  else b.sequences

def bankAfter (b : Checkpointed) (reply : Reply) : Call → List Snapshot
  | .seqRm seq p0 p1 =>
    if reply = .done then checkpointInvalidate b.sequences seq p0 p1 else b.sequences
  | .seqCp src dst p0 p1 _ =>
    if reply = .done ∧ src ≠ dst ∧
        ¬ (b.cache.ordered = true ∧ (b.cache.copiedOrders src p0 p1).isEmpty = true) then
      checkpointDelete b.sequences dst
    else b.sequences
  | .seqKeep seq => b.sequences.mapIdx fun i snapshot =>
      if seq < 0 ∨ (i : Int) ≠ seq then snapshot.delete else snapshot
  | .seqAdd seq p0 p1 delta _ => b.bankMoved seq p0 p1 (delta = 0) reply
  | .seqDiv seq p0 p1 d _ => b.bankMoved seq p0 p1 (d = 1) reply
  | .clear => checkpointDelete b.sequences (-1)
  | .decode .. | .defrag | .update => b.sequences

/-- A call on the state: a Qwen context has a history to keep, another one has not. -/
def callState (env : Env) (q : Qwen) (a : Call) : Option (Qwen × Reply) :=
  if q.cache.ordered then q.call env a
  else (KvCache.call env q.cache a).map fun r => ({ q with cache := r.1 }, r.2)

def call (env : SpecEnv) (b : Checkpointed) (a : Call) : Option (Checkpointed × Reply) :=
  (callState env.toEnv b.state a).map fun r =>
    ({ b with state := r.1, sequences := b.bankAfter r.2 a }, r.2)

/-! ## Saving -/

def partialState (q : Qwen) (seq : Int) : PartialState :=
  let c := q.cache
  if c.positionStrict then
    { statePos := c.checkpointPosition seq - 1, rows := some (c.stateRows seq.toNat) }
  else
    let src := (c.cell seq.toNat).src
    { cells := (c.cells.filter fun cell => seq ∈ cell.seqId).map fun cell =>
        (cell.pos, if c.ordered then cell.chronology else cell.pos)
      rows := if c.qnextSeqIdInRange seq ∧ seq < c.size ∧ c.qnextSeqIdInRange src then
        some (c.stateRows src) else none
      history := if c.ordered then q.history.tokens seq else .empty }

def partialBytes (c : Cache) (p : PartialState) : Nat :=
  (if p.rows.isSome then c.stateRowBytes else 0) +
    p.cells.length * (if c.ordered then 16 else 8) + p.history.size * 20

def cpuLimit (env : SpecEnv) (c : Cache) : Nat :=
  c.stateRowBytes + (c.size * 8 + env.nCtxMax * 8 + 64)

/-- The keys of a Qwen cache are rotated before its state is written; `false` when they cannot
be. -/
def settleKeys (env : SpecEnv) (c : Cache) : Option (Cache × Bool) :=
  if c.ordered && c.hasShift && c.k.any Option.isSome then
    (c.update env.graphs).map fun r => (r.1, r.2 = 0)
  else some (c, true)

def setSnapshot (b : Checkpointed) (seq : Int) (snapshot : Snapshot) : Checkpointed :=
  { b with sequences := b.sequences.set seq.toNat snapshot }

def withCache (b : Checkpointed) (c : Cache) : Checkpointed :=
  { b with state := { b.state with cache := c } }

def owns (b : Checkpointed) (seq : Int) : Bool := 0 ≤ seq && seq < b.sequences.length

def checkpointSave (b : Checkpointed) (seq : Int) : Checkpointed × Bool :=
  if b.owns seq && b.cache.hasStateRows seq then
    (b.setSnapshot seq
      { b.sequences.getD seq.toNat {} with
        saved := true
        nPast := b.cache.checkpointPosition seq
        shadow := b.cache.stateRows seq.toNat }, true)
  else (b, false)

/-- `llama_spec_ckpt_save` with the GPU bank: pending copies of recurrent rows come first. -/
def saveGpu (env : SpecEnv) (b : Checkpointed) (seq : Int) : Option (Checkpointed × Bool) :=
  if b.cache.doCopy then
    (b.cache.update env.graphs).map fun r =>
      if r.2 = 0 then (b.withCache r.1).checkpointSave seq else (b.withCache r.1, false)
  else some (b.checkpointSave seq)

def saveCpu (env : SpecEnv) (b : Checkpointed) (seq : Int) : Option (Checkpointed × Bool) :=
  if b.owns seq && b.cache.qnextSeqIdInRange seq then
    (settleKeys env b.cache).map fun r =>
      let b := b.withCache r.1
      let data := partialState b.state seq
      if r.2 && partialBytes b.cache data ≤ cpuLimit env b.cache then
        (b.setSnapshot seq
          { b.sequences.getD seq.toNat {} with
            saved := true
            nPast := b.cache.checkpointPosition seq
            cpuData := some data }, true)
      else (b, false)
  else some (b, false)

/-- `llama_spec_ckpt_save`. -/
def save (env : SpecEnv) (b : Checkpointed) (seq : Int) : Option (Checkpointed × Bool) :=
  match b.mode with
  | .none => some (b, false)
  | .gpuFallback => b.saveGpu env seq
  | .cpu => b.saveCpu env seq

/-! ## Going back -/

/-- `read_kv_cache` of one sequence, with what it has changed when it fails. -/
def readPartial (env : SpecEnv) (q : Qwen) (seq : Int) (data : PartialState) (refused : Bool) :
    Qwen × Bool :=
  let c := q.cache
  match data.rows with
  | none => (q, false)
  | some rows =>
    let written := { q with cache := c.writeStateRows seq.toNat rows }
    if c.positionStrict then
      if data.statePos = c.checkpointPosition seq - 1 then (written, true) else (q, false)
    else if data.cells.any fun cell => decide (cell.1 < 0 ∨ cell.2 < 0) then (q, false)
    else if c.ordered then
      if env.nCtxMax < data.history.size then (written, false)
      else
        match q.history.restore seq data.history refused with
        | none => (written, false)
        | some history => ({ written with history := history }, true)
    else (written, true)

/-- The context when neither the state nor what was there before could be read. -/
def abandon (b : Checkpointed) (seq : Int) : Checkpointed :=
  { b with
    state := { b.state with logitPos := b.state.logitPos.mapIdx fun i pos =>
      if (i : Int) = seq then -1 else pos }
    sequences := checkpointDelete b.sequences seq }

/-- `llama_state_seq_set_data`: what was there is read back after a failure. The flags refuse the
history memory, on the way there and on the way back. -/
def setData (env : SpecEnv) (b : Checkpointed) (seq : Int) (data : PartialState)
    (refused again : Bool) : Option (Checkpointed × Bool) :=
  (settleKeys env b.cache).map fun r =>
    let b := b.withCache r.1
    let rollback := partialState b.state seq
    match readPartial env b.state seq data refused with
    | (q, true) => ({ b with state := q }, true)
    | (q, false) =>
      if r.2 then
        match readPartial env q seq rollback again with
        | (q, true) => ({ b with state := q }, false)
        | (q, false) => ({ b with state := q }.abandon seq, false)
      else ({ b with state := q }.abandon seq, false)

def truncate (b : Checkpointed) (seq nPast : Int) : Checkpointed :=
  b.withCache (b.cache.seqRm seq nPast (-1)).1

def restoreGpu (env : SpecEnv) (b : Checkpointed) (seq nPast : Int) (snapshot : Snapshot) :
    Option (Checkpointed × RestoreResult) :=
  if b.cache.hasStateRows seq then
    ((b.withCache (b.cache.writeStateRows seq.toNat snapshot.shadow)).call env
      (.seqRm seq nPast (-1))).map fun r =>
        (r.1, if r.2 = .done then .baseReplayRequired else .failed)
  else some (b, .failed)

/-- `llama_spec_ckpt_restore_ex` with the CPU bank; a position-strict cache loses the tokens
first. -/
def restoreCpu (env : SpecEnv) (b : Checkpointed) (seq nPast : Int) (snapshot : Snapshot)
    (refused again : Bool) : Option (Checkpointed × RestoreResult) :=
  match snapshot.cpuData with
  | none => some (b, .failed)
  | some data =>
    let strict := b.cache.positionStrict
    let b := if strict then b.truncate seq nPast else b
    (b.setData env seq data refused again).map fun r =>
      if r.2 then (if strict then r.1 else r.1.truncate seq nPast, .baseReplayRequired)
      else (r.1, .failed)

/-- `llama_spec_ckpt_restore_ex`. -/
def restore (env : SpecEnv) (b : Checkpointed) (seq nPast : Int) (refused again : Bool) :
    Option (Checkpointed × RestoreResult) :=
  let snapshot := b.sequences.getD seq.toNat {}
  if !(b.owns seq && snapshot.saved && nPast = snapshot.nPast) then some (b, .failed)
  else
    match b.mode with
    | .none => some (b, .failed)
    | .gpuFallback => b.restoreGpu env seq nPast snapshot
    | .cpu => b.restoreCpu env seq nPast snapshot refused again

/-! ## The machine -/

def discardSeq (b : Checkpointed) (seq : Int) : Checkpointed :=
  if seq < 0 then b else { b with sequences := checkpointDelete b.sequences seq }

/-- `llama_spec_ckpt_discard`. -/
def discard (b : Checkpointed) : Checkpointed :=
  { b with mode := .none, sequences := checkpointDelete b.sequences (-1) }

/-- What can be asked of a context with a bank. -/
inductive Op where
  | call (a : Call)
  | save (seq : Int)
  | restore (seq nPast : Int) (refused again : Bool)
  | discardSeq (seq : Int)
  | discard
  deriving DecidableEq

inductive Answer where
  | replied (reply : Reply)
  | saved (ok : Bool)
  | restored (result : RestoreResult)
  | discarded
  deriving DecidableEq

/-- What is done; `none` when an assertion ends the process. -/
def perform (env : SpecEnv) (b : Checkpointed) : Op → Option (Checkpointed × Answer)
  | .call a => (b.call env a).map fun r => (r.1, .replied r.2)
  | .save seq => (b.save env seq).map fun r => (r.1, .saved r.2)
  | .restore seq nPast refused again =>
    (b.restore env seq nPast refused again).map fun r => (r.1, .restored r.2)
  | .discardSeq seq => some (b.discardSeq seq, .discarded)
  | .discard => some (b.discard, .discarded)

def Step (env : SpecEnv) (b : Checkpointed) (label : Op × Answer) (b' : Checkpointed) : Prop :=
  b.perform env label.1 = some (b', label.2)

/-- A context as it is created, with a bank for its sequences. -/
structure Fresh (env : SpecEnv) (b : Checkpointed) : Prop where
  cache : b.cache.Fresh
  plain : b.cache.recurrent = false
  history : b.state.history = {}
  bank : b.sequences = List.replicate env.seqMax {}
  /-- There are no more slots than rows, and every recurrent layer has as many. -/
  fits : b.cache.qnextStateSlots ≤ b.cache.size
  layers : ∀ t, some t ∈ b.cache.s → t.ne1 = b.cache.qnextStateSlots
  /-- An ordered cache is not position-strict: they belong to different models. -/
  strict : b.cache.positionStrict = true → b.cache.ordered = false
  /-- The cache is as large as the context may become, or smaller. -/
  size : b.cache.size ≤ env.nCtxMax
  padded : 16 ≤ env.nCtxMax

end Checkpointed

end ExpertStreaming.KvCache
