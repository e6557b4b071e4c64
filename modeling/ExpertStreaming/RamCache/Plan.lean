import ExpertStreaming.Lib.FreeSpans
import ExpertStreaming.RamCache.State
import Mathlib.Data.List.Sort

/-! # The RAM expert cache: placement

`allocation_plan` and `staging_plan` read the cache and change nothing. What they
read of it is an `ArenaView`; the three searches of `allocation_plan` (append to a
dense prefix, scan the free gaps, grow the gaps by evicting a prefix of the
retention order) are the source's loops over that view.
-/
namespace ExpertStreaming.RamCache
open Lib

/-- The lambdas `fits`, `free_fits` and `aligned_fit`: `start` rounded up, if `bytes` remain. -/
def alignedFit (alignment bytes start stop : Nat) : Option Nat :=
  match addChecked start (alignment - 1) with
  | none => none
  | some sum =>
    -- clearing the low bits of a power-of-two alignment
    let aligned := sum / alignment * alignment
    if aligned > stop ∨ stop - aligned < bytes then none else some aligned

def intervalLe (a b : Span) : Prop := a.1 < b.1 ∨ (a.1 = b.1 ∧ a.2 ≤ b.2)

instance : DecidableRel intervalLe := fun a b =>
  inferInstanceAs (Decidable (a.1 < b.1 ∨ (a.1 = b.1 ∧ a.2 ≤ b.2)))

def sortIntervals (l : List Span) : List Span := l.insertionSort intervalLe

def interval (r : Region) : Span := (r.off, r.stop)

/-- The first gap with room before, between or after sorted occupied intervals. -/
def scanFit (alignment bytes capacity : Nat) : Nat → List Span → Except CacheError (Option Nat)
  | cursor, [] => .ok (alignedFit alignment bytes cursor capacity)
  | cursor, i :: rest =>
    if i.1 > i.2 ∨ i.2 > capacity then .error .arenaMetadata
    else match alignedFit alignment bytes cursor i.1 with
      | some offset => .ok (some offset)
      | none => scanFit alignment bytes capacity (max cursor i.2) rest

def arenaFirstFit (occupied : List Span) (capacity bytes alignment : Nat) :
    Except CacheError (Option Nat) :=
  scanFit alignment bytes capacity 0 (sortIntervals occupied)

/-- What `allocation_plan` reads: the entries in address order, the other reservations, and the
evictable entries in retention order. -/
structure ArenaView where
  capacity : Nat
  resident : List Region
  residentBytes : Nat
  reservations : List Region
  candidates : List (EntryId × Region)

/-- The dense walk over sorted reservations: the end of the prefix, or `none` at a gap. -/
def denseTail (capacity : Nat) : Nat → List Span → Option Nat
  | tail, [] => some tail
  | tail, i :: rest =>
    if i.1 > i.2 ∨ i.2 > capacity then none
    else match addChecked tail 63 with
      | none => none
      | some sum => if i.1 > sum / 64 * 64 then none else denseTail capacity (max tail i.2) rest

variable (v : ArenaView)

def ArenaView.residentTail : Option Nat :=
  match v.resident.getLast? with
  | none => some 0
  | some r => addChecked r.off r.len

def ArenaView.denseFit (bytes : Nat) : Option Nat :=
  match v.residentTail with
  | none => none
  | some tail =>
    if v.residentBytes = tail ∧ tail ≤ v.capacity then
      match denseTail v.capacity tail (sortIntervals (v.reservations.map interval)) with
      | none => none
      | some tail => alignedFit 64 bytes tail v.capacity
    else none

def ArenaView.occupied : List Span :=
  sortIntervals (v.resident.map interval ++ v.reservations.map interval)

def freeGaps {place : Nat → Nat → Option Nat} (capacity : Nat) :
    Nat → List Span → FreeSpans place → Except CacheError (FreeSpans place)
  | cursor, [], gaps => .ok (gaps.insert cursor capacity)
  | cursor, i :: rest, gaps =>
    if i.1 > i.2 ∨ i.2 > capacity then .error .arenaMetadata
    else freeGaps capacity (max cursor i.2) rest
      (if i.1 > cursor then gaps.insert cursor i.1 else gaps)

/-- Sorted reservations with touching ones joined; `last` is `blocked.back()`. -/
def joinTouching (last : Span) : List Span → List Span
  | [] => [last]
  | i :: rest =>
    if i.1 ≤ last.2 then joinTouching (last.1, max last.2 i.2) rest
    else last :: joinTouching i rest

/-- `blocked`. -/
def ArenaView.blocked : List Span :=
  match sortIntervals (v.reservations.map interval) with
  | [] => []
  | first :: rest => joinTouching first rest

/-- Free a victim's span except for what other loads have reserved of it. -/
def carve {place : Nat → Nat → Option Nat} (stop : Nat) :
    Nat → List Span → FreeSpans place → FreeSpans place
  | start, [], gaps => gaps.insert start stop
  | start, b :: rest, gaps =>
    if b.2 ≤ start then carve stop start rest gaps
    else if b.1 ≥ stop then gaps.insert start stop
    else
      let gaps := if start < b.1 then gaps.insert start (min stop b.1) else gaps
      if max start b.2 ≥ stop then gaps else carve stop (max start b.2) rest gaps

def evictUntilFit {place : Nat → Nat → Option Nat} (blocked : List Span) :
    List (EntryId × Region) → List EntryId → FreeSpans place → Option (Nat × List EntryId)
  | [], _, _ => none
  | c :: rest, victims, gaps =>
    let gaps := carve c.2.stop c.2.off blocked gaps
    match gaps.firstFit with
    | some offset => some (offset, victims ++ [c.1])
    | none => evictUntilFit blocked rest (victims ++ [c.1]) gaps

def ArenaView.plan (bytes : Nat) :
    Except CacheError (Option (Nat × List EntryId)) :=
  match v.denseFit bytes with
  | some offset => .ok (some (offset, []))
  | none =>
    match scanFit 64 bytes v.capacity 0 v.occupied with
    | .error e => .error e
    | .ok (some offset) => .ok (some (offset, []))
    | .ok none =>
      match freeGaps v.capacity 0 v.occupied (.empty (alignedFit 64 bytes)) with
      | .error e => .error e
      | .ok gaps =>
        match gaps.firstFit with
        | some offset => .ok (some (offset, []))
        | none => .ok (evictUntilFit v.blocked v.candidates [] gaps)

/-! ## The views of a cache state -/

/-- Whether `allocation_plan` may evict an entry: published, not leased, and not
reserved by another load. -/
def State.evictable (s : State) (own : Option LoadId) (e : EntryId) : Bool :=
  (s.heap e).ready && (s.heap e).pins == 0 &&
    ((s.heap e).reservedBy == none || (s.heap e).reservedBy == own)

def State.arenaView (p : Params) (s : State) (own : Option LoadId) : ArenaView where
  capacity := p.config.capacityBytes
  resident := s.byOffset.toList.map fun i => ⟨i.1, s.bytesOf p i.2⟩
  residentBytes := s.stats.residentBytes
  reservations := (s.pending.values.filter fun l => some l ≠ own).map (s.claim p)
  candidates := (s.byRecency.filter (s.evictable own)).map fun e => (e, s.region p e)

def State.allocationPlan (p : Params) (s : State) (bytes : Nat) (own : Option LoadId) :
    Except CacheError (Option (Nat × List EntryId)) :=
  (s.arenaView p own).plan bytes

def State.stagingPlan (p : Params) (s : State) (bytes : Nat) : Except CacheError (Option Nat) :=
  if s.pending.isEmpty then .ok (if bytes ≤ p.config.stagingBytes then some 0 else none)
  else arenaFirstFit (s.pending.values.map fun l => interval (s.stage p l))
    p.config.stagingBytes bytes 1

end ExpertStreaming.RamCache
