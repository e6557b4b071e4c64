import ExpertStreaming.Lib.Memory
import ExpertStreaming.Lib.Word
import Mathlib.Data.Prod.Lex

/-! # The RAM expert cache: data

`llama_expert_cache::ram_cache` keeps expert components in one fixed arena.
Objects the source shares by pointer (descriptors, entries, pending loads) are
named by numbers here, so pointer comparison is comparison of names. Wall-clock
counters are left out; every other field of the source is present.
-/
namespace ExpertStreaming.RamCache
open Lib

inductive Component where
  | gate | up | down | gateUp | normalization | probabilityBias
  deriving DecidableEq

/-- The `uint8_t` value of the enumerator, which is what keys are ordered by. -/
def Component.code : Component → Nat
  | .gate => 0 | .up => 1 | .down => 2 | .gateUp => 3 | .normalization => 4 | .probabilityBias => 5

theorem Component.code_injective {a b : Component} (h : a.code = b.code) : a = b := by
  cases a <;> cases b <;> first | rfl | cases h

inductive ReadBackend where
  | mmap | pread | ioUring
  deriving DecidableEq

structure SourceIdentity where
  high : Nat
  low : Nat
  deriving DecidableEq

structure ExpertKey where
  layer : Nat
  expert : Nat
  part : Component
  deriving DecidableEq

def ExpertKey.rank (k : ExpertKey) : ℕ ×ₗ (ℕ ×ₗ ℕ) :=
  toLex (k.layer, toLex (k.expert, k.part.code))

theorem ExpertKey.rank_injective : Function.Injective ExpertKey.rank := by
  intro a b h
  obtain ⟨la, ea, pa⟩ := a
  obtain ⟨lb, eb, pb⟩ := b
  have h₁ : (la, toLex (ea, pa.code)) = (lb, toLex (eb, pb.code)) := toLex.injective h
  obtain ⟨rfl, h₂⟩ := Prod.mk.inj h₁
  obtain ⟨rfl, h₃⟩ := Prod.mk.inj (toLex.injective h₂)
  rw [Component.code_injective h₃]

instance : LinearOrder ExpertKey := LinearOrder.lift' ExpertKey.rank ExpertKey.rank_injective

structure SourceExtent where
  source : Nat
  identity : SourceIdentity
  offset : Nat
  length : Nat
  deriving DecidableEq

/-- A descriptor as the cache sees it, with what `descriptor::make` checks before it builds one.
-/
structure Descriptor where
  key : ExpertKey
  extents : List SourceExtent
  bytes : Nat
  bytes_pos : 0 < bytes
  bytes_eq : (extents.map SourceExtent.length).sum = bytes

structure Source where
  identity : SourceIdentity
  backend : ReadBackend
  size : Nat
  /-- The immutable file contents. -/
  contents : Nat → UInt8

/-- The configurations the constructor accepts. -/
structure CacheConfig where
  capacityBytes : Nat
  stagingBytes : Nat
  frequencyRetention : Bool
  capacity_pos : 0 < capacityBytes
  staging_pos : 0 < stagingBytes
  staging_le : stagingBytes ≤ capacityBytes
  capacity_le : capacityBytes ≤ u64Max

abbrev DescId := Nat
/-- An entry and the pending load that created it are made together and share a name. -/
abbrev EntryId := Nat
abbrev LoadId := Nat
abbrev LeaseId := Nat
abbrev Tid := Nat

/-- What is fixed for a cache's lifetime: its configuration, its source table,
and the immutable descriptors that exist. -/
structure Params where
  config : CacheConfig
  sources : OrdMap Nat Source
  descriptor : DescId → Descriptor

/-- Every exception the modelled functions throw, one constructor per throw site. -/
inductive CacheError where
  | nullDescriptor
  | componentTooLarge (key : ExpertKey)
  | keyReused
  | allCandidatesLeased
  | sourceIdentityMismatch
  | reservationLeased
  | clearWithFills
  | clearWithLeases
  /-- An exception raised by a source's own `read`. -/
  | readFailed (text : String)
  /-- `std::out_of_range` from `observations_.at`. -/
  | observationMissing
  | arenaMetadata
  | lruMissing
  | lruDuplicated
  | duplicatePublication
  | duplicateIndex
  deriving DecidableEq

/-- The `std::out_of_range` and `std::logic_error` exceptions, which the source
raises only when its own bookkeeping is inconsistent. -/
def CacheError.isInternal : CacheError → Bool
  | .observationMissing | .arenaMetadata | .lruMissing | .lruDuplicated
  | .duplicatePublication | .duplicateIndex => true
  | _ => false

structure Entry where
  desc : DescId
  /-- Start of the payload in the arena; `none` is the null pointer. -/
  data : Option Nat := none
  arenaOffset : Nat := 0
  pins : Nat := 0
  lastUsed : Nat := 0
  insertionOrder : Nat := 0
  frequency : Nat := 0
  ready : Bool := true
  reservedBy : Option LoadId := none

inductive Phase where
  | loading | copying | ready | failed
  deriving DecidableEq

structure PendingLoad where
  state : Phase := .loading
  result : EntryId
  victims : List EntryId := []
  stagingOffset : Nat := 0
  arenaOffset : Nat := 0
  error : Option CacheError := none
  /-- `shared_ptr::use_count`: the map's reference and each caller's local one. -/
  useCount : Nat := 0

structure CacheStats where
  residentBytes : Nat := 0
  peakResidentBytes : Nat := 0
  hits : Nat := 0
  misses : Nat := 0
  evictions : Nat := 0
  rejectedAdmissions : Nat := 0
  pinnedCapacityFailures : Nat := 0
  stagingWaits : Nat := 0
  coalescedLoads : Nat := 0
  failedLoads : Nat := 0
  activeLoads : Nat := 0
  peakActiveLoads : Nat := 0
  stagingUsedBytes : Nat := 0
  peakStagingUsedBytes : Nat := 0
  reservedBytes : Nat := 0
  bytesRead : ReadBackend → Nat := fun _ => 0

/-- A lease and the descriptor its caller asked for. -/
structure Lease where
  entry : EntryId
  desc : DescId
  deriving DecidableEq

/-- Where a thread inside `acquire` is, between its mutex sections. -/
inductive Call where
  /-- In `changed_.wait(lock)` of the admission loop. -/
  | admission (desc : DescId)
  /-- Waiting for another caller's load of the same key. -/
  | coalesced (desc : DescId) (load : LoadId)
  /-- Reading, with `done` extents already in the staging region. -/
  | reading (desc : DescId) (load : LoadId) (done : Nat)
  /-- A read has thrown after `done` extents; the mutex is not yet held again. -/
  | readFailed (desc : DescId) (load : LoadId) (done : Nat) (error : CacheError)
  /-- In the publication `memcpy`, with `done` bytes copied. -/
  | copying (desc : DescId) (load : LoadId) (done : Nat)
  deriving DecidableEq

def Call.load? : Call → Option LoadId
  | .admission _ => none
  | .coalesced _ l | .reading _ l _ | .readFailed _ l _ _ | .copying _ l _ => some l

def Call.owned? : Call → Option LoadId
  | .admission _ | .coalesced _ _ => none
  | .reading _ l _ | .readFailed _ l _ _ | .copying _ l _ => some l

structure State where
  heap : EntryId → Entry
  loads : LoadId → PendingLoad
  /-- The next unused entry and load name. -/
  next : Nat
  canonical : OrdMap ExpertKey DescId
  observations : OrdMap ExpertKey Nat
  entries : OrdMap ExpertKey EntryId
  byOffset : OrdMap Nat EntryId
  /-- The set ordered by `lru_less`, in iteration order. -/
  byRecency : List EntryId
  pending : OrdMap ExpertKey LoadId
  staging : Memory UInt8
  arena : Memory UInt8
  clock : Nat
  insertionClock : Nat
  frequencyClock : Nat
  stats : CacheStats
  /-- The threads inside `acquire`. -/
  calls : OrdMap Tid Call
  /-- The leases callers hold. -/
  leases : OrdMap LeaseId Lease
  nextLease : LeaseId

/-- A freshly constructed cache. The arenas' initial contents are arbitrary. -/
def State.initial (staging arena : Memory UInt8) : State where
  heap := fun _ => { desc := 0 }
  loads := fun l => { result := l }
  next := 0
  canonical := .empty
  observations := .empty
  entries := .empty
  byOffset := .empty
  byRecency := []
  pending := .empty
  staging := staging
  arena := arena
  clock := 0
  insertionClock := 0
  frequencyClock := 0
  stats := {}
  calls := .empty
  leases := .empty
  nextLease := 0

/-! ## What a descriptor's bytes are -/

variable (p : Params)

def extentBytes (x : SourceExtent) : List UInt8 :=
  match p.sources.find? x.source with
  | some s => (List.range x.length).map fun i => s.contents (x.offset + i)
  | none => List.replicate x.length 0

/-- The concatenation, in extent order, of the source bytes of a descriptor's extents. -/
def payload (d : DescId) : List UInt8 :=
  (p.descriptor d).extents.flatMap (extentBytes p)

def bytesBefore (d : DescId) (n : Nat) : Nat :=
  (((p.descriptor d).extents.take n).map SourceExtent.length).sum

@[simp] theorem length_extentBytes (x : SourceExtent) :
    (extentBytes p x).length = x.length := by
  unfold extentBytes; split <;> simp

@[simp] theorem length_payload (d : DescId) :
    (payload p d).length = (p.descriptor d).bytes := by
  rw [← (p.descriptor d).bytes_eq, payload, List.length_flatMap]
  congr 1
  apply List.map_congr_left
  intro x _
  exact length_extentBytes p x

/-! ## Names and regions -/

def State.keyOf (s : State) (e : EntryId) : ExpertKey :=
  (p.descriptor (s.heap e).desc).key

def State.bytesOf (s : State) (e : EntryId) : Nat :=
  (p.descriptor (s.heap e).desc).bytes

/-- The arena bytes `[arena_offset, arena_offset + bytes)` of an entry. -/
def State.region (s : State) (e : EntryId) : Region :=
  ⟨(s.heap e).arenaOffset, s.bytesOf p e⟩

def State.claim (s : State) (l : LoadId) : Region :=
  ⟨(s.loads l).arenaOffset, s.bytesOf p (s.loads l).result⟩

def State.stage (s : State) (l : LoadId) : Region :=
  ⟨(s.loads l).stagingOffset, s.bytesOf p (s.loads l).result⟩

def State.Resident (s : State) (e : EntryId) : Prop :=
  s.entries.find? (s.keyOf p e) = some e

def State.Pending (s : State) (l : LoadId) : Prop :=
  s.pending.find? (s.keyOf p (s.loads l).result) = some l

theorem State.bytesOf_pos (s : State) (e : EntryId) : 0 < s.bytesOf p e :=
  (p.descriptor (s.heap e).desc).bytes_pos

end ExpertStreaming.RamCache
