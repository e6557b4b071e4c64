import ExpertStreaming.KvCache.History
import ExpertStreaming.KvCache.Runs

/-! # A Qwen context

The context of a Qwen4Exp model has an ordered cache, a token history and, for every sequence,
the position of the last output it saved. The public calls work on all three. A call prepares
the new history first, on a copy; its failure, or a refused allocation, leaves the context as it
was, except that a decode has taken its rows by then.
-/
namespace ExpertStreaming.KvCache
open Lib

/-- The state of a Qwen context that the sequence calls work on. -/
structure Qwen where
  cache : Cache
  /-- `qwen4exp_ple_sequences`. -/
  history : History := {}
  /-- `qwen4exp_last_logit_pos`. -/
  logitPos : List Int := []

namespace Qwen

/-! ## Decoding -/

def attendedRows (c : Cache) (seq : Int) : List Nat :=
  (List.range c.n).filter fun row => 0 ≤ (c.cell row).pos ∧ seq ∈ (c.cell row).seqId

def layoutError (c : Cache) (batch : List BatchToken) : Option String :=
  if batch.any fun token => token.seqs.length ≠ 1 then
    some "Qwen ordered attention requires one sequence per query"
  else if batch.any fun token => decide ¬
      ((attendedRows c (token.seqs.headD 0)).map fun row => (c.cell row).chronology).Nodup then
    some "Qwen attention cache contains duplicate chronological token order"
  else none

/-- The tokens of a batch are added to the history, one after the other. -/
def acceptBatch (h : History) : List BatchToken → Except String History
  | [] => .ok h
  | token :: rest =>
    if token.seqs.length ≠ 1 then
      .error "qwen4exp PLE currently requires exactly one sequence per token"
    else
      match h.accept (token.seqs.headD 0) token.pos token.token with
      | .error message => .error message
      | .ok h => acceptBatch h rest

variable (env : Env)

/-- `llama_qwen4exp_output_ledger_init`. -/
def ledger (logitPos : List Int) : List Int :=
  if logitPos.length = env.seqMax then logitPos else List.replicate env.seqMax (-1)

/-- The position of the last output is saved for the sequence of the first token. -/
def saveOutput (logitPos : List Int) (batch : List BatchToken) : Option (List Int) :=
  match (batch.filter (·.logits)).getLast? with
  | none => some logitPos
  | some last =>
    let seq := (batch.head?.bind fun token => token.seqs.head?).getD 0
    if 0 ≤ seq ∧ seq < logitPos.length then some (logitPos.set seq.toNat last.pos) else none

def decode (q : Qwen) (batch : List BatchToken) (refused : Option String) :
    Option (Qwen × Reply) :=
  (q.cache.decodeSlot env batch).bind fun slot =>
    if slot.2 = .done then
      match layoutError slot.1 batch with
      | some message => some ({ q with cache := slot.1 }, .threw message)
      | none =>
        let q := { q with cache := slot.1, logitPos := ledger env q.logitPos }
        match refused with
        | some message => some (q, .threw message)
        | none =>
          match acceptBatch q.history batch with
          | .error message => some (q, .threw message)
          | .ok history =>
            match env.compute q.cache batch with
            | .error code => some (q, .returned code)
            | .ok w =>
              (saveOutput q.logitPos batch).map fun logitPos =>
                (⟨q.cache.computed batch.length w, history, logitPos⟩, .done)
    else some ({ q with cache := slot.1 }, slot.2)

/-! ## Sequence calls -/

def Saved (seq p0 p1 : Int) (i : Nat) (pos : Int) : Prop :=
  (seq < 0 ∨ (i : Int) = seq) ∧ Cache.Copied p0 p1 pos

instance (seq p0 p1 : Int) (i : Nat) (pos : Int) : Decidable (Saved seq p0 p1 i pos) :=
  inferInstanceAs (Decidable (_ ∧ _))

def seqRm (q : Qwen) (seq p0 p1 : Int) : Qwen × Reply :=
  let r := q.cache.seqRm seq p0 p1
  if r.2 then
    (⟨r.1, q.history.remove seq p0 p1,
      q.logitPos.mapIdx fun i pos => if Saved seq p0 p1 i pos then -1 else pos⟩, .done)
  else ({ q with cache := r.1 }, .returned 0)

def copyOutput (logitPos : List Int) (src dst p0 p1 : Int) : List Int :=
  if 0 ≤ dst ∧ dst < logitPos.length then
    let pos := logitPos.getD src.toNat (-1)
    logitPos.set dst.toNat
      (if 0 ≤ src ∧ src < logitPos.length ∧ Cache.Copied p0 p1 pos then pos else -1)
  else logitPos

def prepare (refused : Option String) (prepared : Except String History) : Except String History :=
  match refused with
  | some message => .error message
  | none => prepared

def seqCp (q : Qwen) (src dst p0 p1 : Int) (refused : Option String) :
    Option (Qwen × Reply) :=
  if src = dst then some (q, .done)
  else if !(Cache.ownsSequence env src && Cache.ownsSequence env dst) then
    some (q, .threw "Qwen sequence copy has invalid sequence ownership")
  else
    match prepare refused (q.history.copy src dst p0 p1) with
    | .error message => some (q, .threw message)
    | .ok history =>
      if (q.cache.copiedOrders src p0 p1).isEmpty then some (q, .done)
      else
        ((q.cache.replaceOrders src dst p0 p1).seqCp src dst p0 p1).map fun c =>
          (⟨c, history, copyOutput q.logitPos src dst p0 p1⟩, .done)

def seqKeep (q : Qwen) (seq : Int) : Qwen :=
  ⟨q.cache.seqKeep seq, q.history.keep seq,
    q.logitPos.mapIdx fun i pos => if seq < 0 ∨ (i : Int) ≠ seq then -1 else pos⟩

/-- The history after a change of positions; a position may come out too large for a cell. -/
def moveHistory (h : History) (seq first last delta divisor : Int) : Except String History :=
  match if divisor = 1 then h.add seq first last delta else h.divide seq first last divisor with
  | .error message => .error message
  | .ok h =>
    if h.exceeds then .error "Qwen position transform overflows PLE position" else .ok h

def moveOutputs (logitPos : List Int) (t : Cache.Transform) : Except String (List Int) :=
  let touched := fun (i : Nat) (pos : Int) =>
    (t.seq < 0 ∨ (i : Int) = t.seq) ∧ t.first ≤ pos ∧ pos < t.last
  if (logitPos.mapIdx fun i pos => decide (touched i pos ∧ posMax < t.next pos)).any id then
    .error "Qwen position transform overflows saved output position"
  else
    .ok (logitPos.mapIdx fun i pos =>
      if touched i pos then (if t.next pos < 0 then -1 else t.next pos) else pos)

/-- The history and the saved outputs are prepared when the plan for the cache stands. -/
def moveSides (q : Qwen) (t : Cache.Transform) (refused : Option String) :
    Except String (History × List Int) :=
  match prepare refused (moveHistory q.history t.seq t.first t.last t.delta t.divisor) with
  | .error message => .error message
  | .ok history =>
    match moveOutputs q.logitPos t with
    | .error message => .error message
    | .ok logitPos => .ok (history, logitPos)

def transformPositions (q : Qwen) (seq p0 p1 delta divisor : Int)
    (refused : Option String) : Qwen × Reply :=
  let t : Cache.Transform := ⟨seq, max 0 p0, highest p1, delta, divisor⟩
  if divisor ≤ 0 then (q, .threw "Qwen position divisor must be positive")
  else if t.last ≤ t.first ∨ (divisor = 1 ∧ delta = 0) then (q, .done)
  else
    match q.moveSides t refused with
    | .error message =>
      let r := q.cache.transformPositions env seq p0 p1 delta divisor (some message)
      ({ q with cache := r.1 }, r.2)
    | .ok (history, logitPos) =>
      match q.cache.transformPositions env seq p0 p1 delta divisor none with
      | (c, .done) => (⟨c, history, logitPos⟩, .done)
      | (c, reply) => ({ q with cache := c }, reply)

/-- `llama_kv_cache_clear`. -/
def clear (q : Qwen) : Qwen :=
  ⟨q.cache.clear, History.clear, q.logitPos.map fun _ => -1⟩

/-- A public call on the context; `none` when an assertion ends the process. -/
def call (q : Qwen) : Call → Option (Qwen × Reply)
  | .decode batch refused => q.decode env batch refused
  | .seqRm seq p0 p1 => some (q.seqRm seq p0 p1)
  | .seqCp src dst p0 p1 refused => q.seqCp env src dst p0 p1 refused
  | .seqKeep seq => some (q.seqKeep seq, .done)
  | .seqAdd seq p0 p1 delta refused =>
    some (if delta = 0 then (q, .done) else q.transformPositions env seq p0 p1 delta 1 refused)
  | .seqDiv seq p0 p1 d refused =>
    some (if d = 1 then (q, .done) else q.transformPositions env seq p0 p1 0 d refused)
  | .clear => some (q.clear, .done)
  | .defrag => some ({ q with cache := q.cache.defrag }, .done)
  | .update => (q.cache.update env.graphs).map fun r =>
      ({ q with cache := r.1 }, if r.2 = 0 then .done else .returned r.2)

def Step (q : Qwen) (label : Call × Reply) (q' : Qwen) : Prop :=
  q.call env label.1 = some (q', label.2)

/-- A context as it is created. -/
structure Fresh (q : Qwen) : Prop where
  cache : q.cache.Fresh
  plain : q.cache.recurrent = false
  ordered : q.cache.ordered = true
  history : q.history = {}

end Qwen

end ExpertStreaming.KvCache
