import ExpertStreaming.Lib.Word

/-! # Resource plans

The planner divides the memory of a machine before a model is loaded: one row for
every accelerator, or one row for the host when there is none, and the RAM fields
beside them. A plan is later the starting point of every runtime rebalance.

Byte amounts are words of 64 bits and token counts words of 32 bits. They are natural
numbers here; `InRange` says that an input holds words.
-/
namespace ExpertStreaming.Planner

open Lib

inductive MemoryPolicy where
  | auto
  | resident
  | cache
  | stream
  deriving DecidableEq

inductive ResourcePreference where
  | balanced
  | latency
  | throughput
  deriving DecidableEq

inductive KvQuality where
  | turbo1
  | turbo2
  | turbo3
  | turbo4
  | turbo8
  | q8
  | f16
  deriving DecidableEq

def KvQuality.rank : KvQuality → Nat
  | .turbo1 => 0
  | .turbo2 => 1
  | .turbo3 => 2
  | .turbo4 => 3
  | .turbo8 => 4
  | .q8 => 5
  | .f16 => 6

inductive ResourceBackend where
  | mmap
  | pread
  | ioUring
  deriving DecidableEq

/-- Which of the mutually exclusive transient modules may be resident. -/
inductive TransientPolicy where
  | off
  | shared
  | mtpOnly
  | multimodalOnly
  deriving DecidableEq

def memoryPolicyName : MemoryPolicy → String
  | .auto => "auto"
  | .resident => "resident"
  | .cache => "cache"
  | .stream => "stream"

def kvQualityName : KvQuality → String
  | .turbo1 => "turbo1"
  | .turbo2 => "turbo2"
  | .turbo3 => "turbo3"
  | .turbo4 => "turbo4"
  | .turbo8 => "turbo8"
  | .q8 => "q8_0"
  | .f16 => "f16"

/-- One device as the caller describes it. The host has a negative identifier. -/
structure DeviceInput where
  id : Int := 0
  freeBytes : Nat := 0
  reserveBytes : Nat := 0
  denseBytes : Nat := 0
  graphBytes : Nat := 0
  deriving DecidableEq

structure PlanInput where
  requestedPolicy : MemoryPolicy := .auto
  preference : ResourcePreference := .balanced
  requestedBackend : ResourceBackend := .pread
  backendAvailable : Bool := true
  modelIsMoe : Bool := false
  maxRamBytes : Nat := 0
  denseRamBytes : Nat := 0
  expertSourceBytes : Nat := 0
  requestedExpertRamBytes : Nat := 0
  minExpertRamBytes : Nat := 0
  qwen4expPleRamBytes : Nat := 0
  requestedAuxRamBytes : Nat := 0
  requestedExpertVramBytesPerDevice : Nat := 0
  requestedExpertPrefillStagingBytesPerDevice : Nat := 0
  requireExpertPrefillStaging : Bool := false
  ioStagingBytes : Nat := 0
  mtpBytes : Nat := 0
  multimodalBytes : Nat := 0
  /-- The device of the transient modules; negative for the first one. -/
  transientDevice : Int := -1
  requireDraft : Bool := false
  requestedContext : Nat := 0
  maxContext : Nat := 0
  minContext : Nat := 512
  contextAlignment : Nat := 1
  slots : Nat := 1
  requestedBatch : Nat := 2048
  requestedUbatch : Nat := 512
  minKvQuality : KvQuality := .turbo4
  /-- KV bytes for a token over all layers; zero where the quality is unavailable. -/
  kvBytesPerToken : KvQuality → Nat := fun _ => 0
  devices : List DeviceInput := []
  /-- The native size query, where the caller has one. -/
  kvBytesForContext : Option (KvQuality → Nat → Nat) := none
  hostGraphMetadataBytes : Nat := 0

structure DevicePlan where
  id : Int := 0
  capacityBytes : Nat := 0
  reserveBytes : Nat := 0
  denseBytes : Nat := 0
  graphBytes : Nat := 0
  kvBytes : Nat := 0
  expertCacheBytes : Nat := 0
  expertPrefillStagingBytes : Nat := 0
  transientBytes : Nat := 0
  plannedBytes : Nat := 0
  headroomBytes : Nat := 0
  deriving DecidableEq

structure Plan where
  policy : MemoryPolicy := .resident
  backend : ResourceBackend := .pread
  kvQuality : KvQuality := .f16
  context : Nat := 0
  slots : Nat := 0
  batch : Nat := 0
  ubatch : Nat := 0
  ramCapacityBytes : Nat := 0
  ramPlannedBytes : Nat := 0
  expertRamBytes : Nat := 0
  qwen4expPleRamBytes : Nat := 0
  auxRamBytes : Nat := 0
  ioStagingBytes : Nat := 0
  transientDevice : Int := -1
  transientPolicy : TransientPolicy := .off
  transientMtpBytes : Nat := 0
  transientMultimodalBytes : Nat := 0
  transientCapacityBytes : Nat := 0
  expertPrefillStagingEnabled : Bool := false
  transientSwap : Bool := false
  draftResident : Bool := false
  reason : String := ""
  devices : List DevicePlan := []
  kvNativeSizing : Bool := false
  kvBytesForContext : Option (Nat → Nat) := none
  hostGraphMetadataBytes : Nat := 0
  hostContextMetadataBytes : Nat := 0
  hostGraphWorkspaceBytes : Nat := 0

/-- The parts of a device row, in the order in which the source adds them up. -/
def DevicePlan.parts (row : DevicePlan) : List Nat :=
  [row.denseBytes, row.graphBytes, row.kvBytes, row.expertCacheBytes,
    row.expertPrefillStagingBytes, row.transientBytes]

/-- What a row holds, without the memory it must keep free. -/
def DevicePlan.usable (row : DevicePlan) : Nat := row.capacityBytes - row.reserveBytes

variable (plan : Plan)

def Plan.kvTotal : Nat := (plan.devices.map (·.kvBytes)).sum

/-- The RAM reservations of a plan that are not weights. -/
def Plan.reservations : List Nat :=
  [plan.expertRamBytes, plan.auxRamBytes, plan.ioStagingBytes, plan.qwen4expPleRamBytes,
    plan.hostGraphMetadataBytes, plan.hostContextMetadataBytes, plan.hostGraphWorkspaceBytes]

def Plan.hostRows : List DevicePlan := plan.devices.filter (·.id < 0)

/-- What the host rows hold beyond the weights, which the RAM fields already count. -/
def Plan.hostNonWeight : Nat :=
  (plan.hostRows.map fun row => row.plannedBytes - row.denseBytes).sum

theorem hostNonWeight_eq {plan : Plan} (h : plan.hostRows.length ≤ 1) :
    plan.hostNonWeight = ((plan.devices.find? (·.id < 0)).map
      fun row => row.plannedBytes - row.denseBytes).getD 0 := by
  rw [← List.head?_filter]
  unfold Plan.hostNonWeight
  unfold Plan.hostRows at h ⊢
  cases hrows : plan.devices.filter (·.id < 0) with
  | nil => simp
  | cons row rest =>
    rw [hrows] at h
    obtain rfl : rest = [] := List.length_eq_zero_iff.mp (by simpa using h)
    simp

/-- The input's numbers are machine words. -/
structure PlanInput.InRange (input : PlanInput) : Prop where
  maxRam : input.maxRamBytes ≤ u64Max
  denseRam : input.denseRamBytes ≤ u64Max
  free : ∀ device ∈ input.devices, device.freeBytes ≤ u64Max
  mtp : input.mtpBytes ≤ u64Max
  reserve : ∀ device ∈ input.devices, device.reserveBytes ≤ u64Max
  requested : input.requestedContext ≤ u32Max
  limit : input.maxContext ≤ u32Max
  kv : ∀ query ∈ input.kvBytesForContext, ∀ quality context, query quality context ≤ u64Max

end ExpertStreaming.Planner
