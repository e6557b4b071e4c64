import ExpertStreaming.KvCache.Sequences

/-! # The token history of a Qwen context

`qwen4exp_ple_sequence_state` keeps the tokens of every sequence by chronological order, with
their positions. It has the operations of the cache, written for maps: a refused operation
throws and leaves the history it was applied to as it was. The rolling hash kept with each
sequence follows from its tokens and is left out.
-/
namespace ExpertStreaming.KvCache
open Lib

/-- `sequence`: tokens by order, with position and id. -/
structure Stream where
  tokens : OrdMap Int (Int × Nat) := .empty
  maxPosition : Int := -1

/-- `qwen4exp_ple_sequence_state`. -/
structure History where
  sequences : OrdMap Int Stream := .empty

namespace Stream

def rebuild (tokens : OrdMap Int (Int × Nat)) : Stream :=
  { tokens := tokens
    maxPosition := tokens.values.foldl (fun largest entry => max largest entry.1) (-1) }

def nonempty (stream : Stream) : Option Stream :=
  if stream.tokens.isEmpty then none else some stream

end Stream

namespace History

def high (p1 : Int) : Int := if p1 < 0 then orderMax else p1

def Within (p0 p1 pos : Int) : Prop := lowest p0 ≤ pos ∧ pos < high p1

instance (p0 p1 pos : Int) : Decidable (Within p0 p1 pos) := inferInstanceAs (Decidable (_ ∧ _))

def Concerns (seq q : Int) : Prop := seq < 0 ∨ q = seq

instance (seq q : Int) : Decidable (Concerns seq q) := inferInstanceAs (Decidable (_ ∨ _))

variable (h : History)

def lookup (seq order : Int) : Option (Int × Nat) :=
  (h.sequences.find? seq).bind fun stream => stream.tokens.find? order

def put (seq : Int) (stream : Stream) (order position : Int) (token : Nat) :
    History :=
  { sequences :=
      h.sequences.insert seq ⟨stream.tokens.insert order (position, token), position⟩ }

def accept (seq position : Int) (token : Nat) : Except String History :=
  if position < 0 ∨ position = orderMax then .error "qwen4exp PLE token position is invalid"
  else
    let stream := (h.sequences.find? seq).getD {}
    if position ≤ stream.maxPosition then
      .error "qwen4exp PLE new token position must follow retained positions"
    else
      match stream.tokens.last? with
      | none => .ok (h.put seq stream position position token)
      | some last =>
        if orderMax - 1 ≤ last.1 then .error "qwen4exp PLE chronological order overflows"
        else .ok (h.put seq stream (last.1 + 1) position token)

def remove (seq p0 p1 : Int) : History :=
  if high p1 ≤ lowest p0 then h
  else
    { sequences := h.sequences.filterMapWithKey fun q stream =>
        if Concerns seq q then
          let left := stream.tokens.filterMapWithKey fun _ entry =>
            if Within p0 p1 entry.1 then none else some entry
          (if left.size = stream.tokens.size then stream else Stream.rebuild left).nonempty
        else some stream }

def copied (source : Stream) (p0 p1 : Int) : OrdMap Int (Int × Nat) :=
  source.tokens.filterMapWithKey fun _ entry =>
    if Within p0 p1 entry.1 then some entry else none

/-- A token of the destination is at a position that is copied, and is not the source's. -/
def conflicts (source destination : Stream) (p0 p1 : Int) : Bool :=
  destination.tokens.toList.any fun b =>
    (copied source p0 p1).values.any (fun entry => entry.1 = b.2.1) &&
      source.tokens.find? b.1 != some b.2

/-- A token of the destination has an order that is copied, and is another one. -/
def disagrees (source destination : Stream) (p0 p1 : Int) : Bool :=
  (copied source p0 p1).toList.any fun b =>
    (destination.tokens.find? b.1).any fun entry => entry != b.2

def copy (src dst p0 p1 : Int) : Except String History :=
  if src = dst then .ok h
  else
    match h.sequences.find? src with
    | none => .ok h
    | some source =>
      if high p1 ≤ lowest p0 then .ok h
      else
        let prepared := (h.sequences.find? dst).getD {}
        if conflicts source prepared p0 p1 then
          .error "qwen4exp PLE sequence copy has conflicting token positions"
        else if disagrees source prepared p0 p1 then
          .error "qwen4exp PLE sequence copy has conflicting token order"
        else if (copied source p0 p1).isEmpty then .ok h
        else
          .ok { sequences := h.sequences.insert dst (Stream.rebuild
            ((copied source p0 p1).toList.foldl (fun m b => m.emplace b.1 b.2) prepared.tokens)) }

/-- The streams concerned with every position changed; tokens before the beginning are dropped. -/
def movePositions (seq p0 p1 : Int) (f : Int → Int) : History :=
  { sequences := h.sequences.filterMapWithKey fun q stream =>
      if Concerns seq q then
        (Stream.rebuild (stream.tokens.filterMapWithKey fun _ entry =>
          let position := if p0 ≤ entry.1 ∧ entry.1 < p1 then f entry.1 else entry.1
          if position < 0 then none else some (position, entry.2))).nonempty
      else some stream }

def add (seq p0 p1 delta : Int) : Except String History :=
  if delta = 0 ∨ high p1 ≤ lowest p0 then .ok h
  else if h.sequences.toList.any fun b => decide (Concerns seq b.1) &&
      b.2.tokens.values.any fun entry =>
        decide (Within p0 p1 entry.1 ∧ 0 < delta ∧ orderMax - delta < entry.1) then
    .error "qwen4exp PLE position shift overflows"
  else .ok (h.movePositions seq (lowest p0) (high p1) (· + delta))

def divide (seq p0 p1 divisor : Int) : Except String History :=
  if divisor ≤ 0 then .error "qwen4exp PLE position divisor must be positive"
  else if high p1 ≤ lowest p0 ∨ divisor = 1 then .ok h
  else
    .ok { sequences := h.sequences.mapWithKey fun q stream =>
      if Concerns seq q then
        Stream.rebuild (stream.tokens.mapValues fun entry =>
          (if Within p0 p1 entry.1 then entry.1.tdiv divisor else entry.1, entry.2))
      else stream }

def keep (seq : Int) : History :=
  { sequences := h.sequences.filterMapWithKey fun q stream =>
      if q = seq then some stream else none }

def clear : History := {}

/-- `all_tokens` holds a position past the largest one a cell can have. -/
def exceeds : Bool :=
  h.sequences.toList.any fun b => b.2.tokens.values.any fun entry => decide (posMax < entry.1)

/-! ## Lookups after an operation -/

theorem lookup_filterMap (f : Int → Stream → Option Stream) (seq order : Int) :
    lookup { sequences := h.sequences.filterMapWithKey f } seq order =
      ((h.sequences.find? seq).bind (f seq)).bind fun stream => stream.tokens.find? order := by
  unfold lookup
  rw [OrdMap.find?_filterMapWithKey]

theorem find?_nonempty (stream : Stream) (order : Int) :
    (stream.nonempty.bind fun stream => stream.tokens.find? order) = stream.tokens.find? order := by
  unfold Stream.nonempty
  split
  next hempty => exact (OrdMap.isEmpty_iff.mp hempty order).symm
  · rfl

theorem lookup_insert (seq q order : Int) (stream : Stream) :
    lookup { sequences := h.sequences.insert seq stream } q order =
      if q = seq then stream.tokens.find? order else h.lookup q order := by
  unfold lookup
  rw [OrdMap.find?_insert]
  split <;> rfl

theorem lookup_getD (seq order : Int) :
    ((h.sequences.find? seq).getD {}).tokens.find? order = h.lookup seq order := by
  unfold lookup
  cases h.sequences.find? seq <;> rfl

theorem filter_eq_of_size {m : OrdMap Int (Int × Nat)} {p : Int × Nat → Prop} [DecidablePred p]
    (h : (m.filterMapWithKey fun _ entry => if p entry then none else some entry).size = m.size)
    {order : Int} {entry : Int × Nat} (hentry : m.find? order = some entry) : ¬ p entry := by
  intro hp
  have hmem := OrdMap.find?_eq_some.mp hentry
  have hlt : (m.toList.filterMap fun b =>
      (if p b.2 then none else some b.2).map fun v => (b.1, v)).length < m.toList.length := by
    refine List.length_filterMap_lt_length_iff_exists.mpr ⟨(order, entry), hmem, ?_⟩
    simp [hp]
  exact absurd h (Nat.ne_of_lt hlt)

theorem lookup_remove (seq p0 p1 q order : Int) :
    (h.remove seq p0 p1).lookup q order =
      if Concerns seq q then (h.lookup q order).bind fun entry =>
        if Within p0 p1 entry.1 then none else some entry
      else h.lookup q order := by
  unfold remove
  split
  next hempty =>
    have hall : ∀ entry : Int × Nat, ¬ Within p0 p1 entry.1 := by
      intro entry hin
      exact absurd (Int.lt_of_le_of_lt hin.1 hin.2) (Int.not_lt.mpr hempty)
    split
    · cases hentry : h.lookup q order <;> simp [hall]
    · rfl
  next hrange =>
  rw [lookup_filterMap]
  unfold lookup
  cases h.sequences.find? q with
  | none => split <;> rfl
  | some stream =>
    rw [Option.bind_some]
    split
    next hconcerns =>
      rw [find?_nonempty, Option.bind_some]
      split
      next hsize =>
        cases hentry : stream.tokens.find? order with
        | none => rfl
        | some entry =>
          rw [Option.bind_some, if_neg (filter_eq_of_size hsize hentry)]
      · exact OrdMap.find?_filterMapWithKey _ _ _
    · rfl

theorem lookup_keep (seq q order : Int) :
    (h.keep seq).lookup q order = if q = seq then h.lookup q order else none := by
  unfold keep
  rw [lookup_filterMap]
  unfold lookup
  cases h.sequences.find? q with
  | none => split <;> rfl
  | some stream => split <;> rfl

theorem lookup_movePositions (seq p0 p1 : Int) (f : Int → Int) (q order : Int) :
    (h.movePositions seq p0 p1 f).lookup q order =
      if Concerns seq q then (h.lookup q order).bind fun entry =>
        let position := if p0 ≤ entry.1 ∧ entry.1 < p1 then f entry.1 else entry.1
        if position < 0 then none else some (position, entry.2)
      else h.lookup q order := by
  unfold movePositions
  rw [lookup_filterMap]
  unfold lookup
  cases h.sequences.find? q with
  | none => split <;> rfl
  | some stream =>
    rw [Option.bind_some]
    split
    · rw [find?_nonempty]
      exact OrdMap.find?_filterMapWithKey _ _ _
    · rfl

end History

end ExpertStreaming.KvCache
