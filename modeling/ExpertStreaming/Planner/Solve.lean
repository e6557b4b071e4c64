import ExpertStreaming.Planner.Types

/-! # Solving for a plan

`solve` fixes the RAM fields first, then looks for a context. For every allowed
quality a binary search over aligned contexts asks `allocateContext` whether the KV
bytes can be divided over the devices, and the preference picks among the qualities.
What is left on a device goes to the transient modules and to the expert cache. At
last the host row and the RAM fields, which name the same memory, are reconciled.

The search runs in 32-bit arithmetic and its lower bound can wrap, so it need not
end. It is given fuel here, and `none` says that it is still running.
-/
namespace ExpertStreaming.Planner

open Lib

def resolvePolicy (input : PlanInput) : MemoryPolicy :=
  if input.requestedPolicy ≠ .auto then input.requestedPolicy
  else if ¬ input.modelIsMoe then .resident
  else if input.maxRamBytes = 0 ∨
      input.expertSourceBytes ≤
        input.maxRamBytes - min input.maxRamBytes input.denseRamBytes then .cache
  else .stream

def qualitiesDescending (floor : KvQuality) : List KvQuality :=
  [.f16, .q8, .turbo8, .turbo4, .turbo3, .turbo2, .turbo1].filter (floor.rank ≤ ·.rank)

/-! ## Dividing the KV bytes of one context -/

def PlanInput.transientHost (input : PlanInput) : Int :=
  if input.transientDevice < 0 then (input.devices.head?.map (·.id)).getD 0
  else input.transientDevice

def PlanInput.kvBytes (input : PlanInput) (quality : KvQuality) (context : Nat) : Nat :=
  match input.kvBytesForContext with
  | some query => query quality context
  | none => mulSaturated (input.kvBytesPerToken quality) context

def PlanInput.prefillStaging (input : PlanInput) (enabled : Bool) (id : Int) : Nat :=
  if enabled && decide (0 ≤ id) then input.requestedExpertPrefillStagingBytesPerDevice else 0

/-- What a device has left for KV; both transient modules count on theirs, for an owner swap. -/
def usableBytes (input : PlanInput) (enabled : Bool) (preparationPeak : Nat)
    (device : DeviceInput) : Option Nat :=
  (sumChecked device.reserveBytes
      [device.denseBytes, device.graphBytes, input.prefillStaging enabled device.id]).bind
    fun fixed =>
    (if device.id = input.transientHost then addChecked fixed preparationPeak
      else some fixed).bind fun fixed =>
    if device.freeBytes < fixed then none else some (device.freeBytes - fixed)

def placeRow (source : DeviceInput) (staging share : Nat) : DevicePlan :=
  let planned := u64Add (u64Add (u64Add source.denseBytes source.graphBytes) staging) share
  { id := source.id
    capacityBytes := source.freeBytes
    reserveBytes := source.reserveBytes
    denseBytes := source.denseBytes
    graphBytes := source.graphBytes
    kvBytes := share
    expertPrefillStagingBytes := staging
    plannedBytes := planned
    headroomBytes := u64Sub (u64Sub source.freeBytes source.reserveBytes) planned }

/-- Shares in proportion to what each device has left; the last one takes the rest. -/
def placeShares (input : PlanInput) (enabled : Bool) (kvTotal weightSum : Nat) :
    Nat → List (DeviceInput × Nat) → Option (List DevicePlan)
  | _, [] => some []
  | assigned, (source, usable) :: rest =>
    let share := if rest.isEmpty then u64Sub kvTotal assigned
      else mulDivFloor kvTotal usable weightSum
    if usable < share then none
    else (placeShares input enabled kvTotal weightSum (u64Add assigned share) rest).map
      (placeRow source (input.prefillStaging enabled source.id) share :: ·)

def allocateContext (input : PlanInput) (plan : Plan) (context : Nat) (quality : KvQuality) :
    Option Plan :=
  if (input.kvBytesForContext.isNone ∧ input.kvBytesPerToken quality = 0) ∨
      input.devices = [] then none
  else
    let kvTotal := input.kvBytes quality context
    if kvTotal = 0 ∨ kvTotal = u64Max then none
    else
      (addChecked input.mtpBytes input.multimodalBytes).bind fun preparationPeak =>
      (input.devices.mapM
        (usableBytes input plan.expertPrefillStagingEnabled preparationPeak)).bind fun usable =>
      (sumChecked 0 usable).bind fun weightSum =>
      if weightSum = 0 ∨ weightSum < kvTotal then none
      else
        (placeShares input plan.expertPrefillStagingEnabled kvTotal weightSum 0
          (input.devices.zip usable)).map fun devices =>
        { plan with
          devices := devices
          kvNativeSizing := input.kvBytesForContext.isSome
          kvBytesForContext :=
            match input.kvBytesForContext with
            | some query => some (query quality)
            | none => plan.kvBytesForContext }

/-! ## Searching for a context -/

/-- Whether a context and quality are preferred to the best ones so far. -/
def betterContextChoice (preference : ResourcePreference) (ceiling context : Nat)
    (quality : KvQuality) (bestContext : Nat) (bestQuality : KvQuality) : Bool :=
  if bestContext = 0 then true
  else if preference = .latency then
    bestQuality.rank < quality.rank || (quality == bestQuality && bestContext < context)
  else if preference = .balanced ∧ context = ceiling then
    bestContext ≠ ceiling || bestQuality.rank < quality.rank
  else if preference = .balanced ∧ bestContext = ceiling then false
  else bestContext < context || (context == bestContext && bestQuality.rank < quality.rank)

/-- The binary search over multiples of the alignment; `none` without an end within the fuel. -/
def searchContext (fits : Nat → Bool) (alignment : Nat) : Nat → Nat → Nat → Nat → Option Nat
  | 0, _, _, _ => none
  | fuel + 1, low, high, best =>
    if low ≤ high then
      let middleUnits := low + (high - low) / 2
      let middle := middleUnits * alignment % 2 ^ 32
      if fits middle then
        searchContext fits alignment fuel ((middleUnits + 1) % 2 ^ 32) high middle
      else if middleUnits = 0 then some best
      else searchContext fits alignment fuel low (middleUnits - 1) best
    else some best

/-- The aligned range in which a context is looked for. -/
structure ContextBounds where
  alignment : Nat
  minimum : Nat
  ceiling : Nat
  deriving DecidableEq

def ContextBounds.lowUnits (bounds : ContextBounds) : Nat := bounds.minimum / bounds.alignment

def ContextBounds.highUnits (bounds : ContextBounds) : Nat := bounds.ceiling / bounds.alignment

/-- The largest context the search finds for one quality; zero where it finds none. -/
def bestContext (fuel : Nat) (input : PlanInput) (bounds : ContextBounds) (base : Plan)
    (quality : KvQuality) : Option Nat :=
  searchContext (fun context => (allocateContext input base context quality).isSome)
    bounds.alignment fuel bounds.lowUnits bounds.highUnits 0

/-- Go through the qualities and keep the preferred placement, if one was found. -/
def findContext (fuel : Nat) (input : PlanInput) (bounds : ContextBounds) (base : Plan) :
    List KvQuality → Option Plan → Option (Option Plan)
  | [], found => some found
  | quality :: rest, found =>
    if input.kvBytesForContext.isNone ∧ input.kvBytesPerToken quality = 0 then
      findContext fuel input bounds base rest found
    else
      (bestContext fuel input bounds base quality).bind fun best =>
      if best = 0 then findContext fuel input bounds base rest found
      else
        match allocateContext input { base with kvQuality := quality, context := best }
            best quality with
        | none => some none
        | some attempt =>
          let preferred := match found with
            | none => true
            | some chosen => betterContextChoice input.preference bounds.ceiling best quality
                chosen.context chosen.kvQuality
          findContext fuel input bounds base rest (if preferred then some attempt else found)

/-! ## The plan around the context -/

/-- What the budget leaves beside the fixed bytes. Without a budget RAM is unlimited. -/
def ramLeft (input : PlanInput) (ramFixed : Nat) : Nat :=
  if input.maxRamBytes = 0 then u64Max - ramFixed else input.maxRamBytes - ramFixed

def requestedExpertRam (input : PlanInput) (policy : MemoryPolicy) (left : Nat) : Nat :=
  if policy = .resident then input.expertSourceBytes
  else min input.requestedExpertRamBytes left

/-- A cache that cannot hold the largest component is given up. -/
def usefulExpertRam (input : PlanInput) (policy : MemoryPolicy) (expert : Nat) : Nat :=
  if policy ≠ .resident ∧ expert ≠ 0 ∧ expert < input.minExpertRamBytes then 0 else expert

def planRam (input : PlanInput) (candidate : Plan) : Except String Plan :=
  match sumChecked input.denseRamBytes [candidate.hostGraphMetadataBytes,
      candidate.ioStagingBytes, candidate.qwen4expPleRamBytes] with
  | none => .error "fixed RAM allocations exceed --max-ram"
  | some ramFixed =>
    if input.maxRamBytes ≠ 0 ∧ input.maxRamBytes < ramFixed then
      .error "fixed RAM allocations exceed --max-ram"
    else
      let left := ramLeft input ramFixed
      let requested := requestedExpertRam input candidate.policy left
      if left < requested then .error "resident expert weights exceed --max-ram"
      else
        let expert := usefulExpertRam input candidate.policy requested
        let aux := min input.requestedAuxRamBytes (left - expert)
        .ok { candidate with
          expertRamBytes := expert
          auxRamBytes := aux
          ramPlannedBytes := u64Add (u64Add ramFixed expert) aux }

def PlanInput.ceiling (input : PlanInput) : Nat :=
  if input.maxContext = 0 then input.requestedContext
  else if input.requestedContext = 0 then input.maxContext
  else min input.requestedContext input.maxContext

def contextBounds (input : PlanInput) : Except String ContextBounds :=
  let alignment := max 1 input.contextAlignment
  let alignedCeiling := input.ceiling / alignment * alignment
  let minimumUnits := (max input.minContext input.slots + alignment - 1) / alignment
  if u32Max < minimumUnits * alignment then
    .error "minimum context cannot be represented at the requested alignment"
  else if alignedCeiling < minimumUnits * alignment then
    .error "requested context is below the minimum context"
  else
    .ok { alignment := alignment, minimum := minimumUnits * alignment, ceiling := alignedCeiling }

/-- Everything before the search: the checks, the RAM fields and the range. -/
def prepare (input : PlanInput) : Except String (Plan × ContextBounds) :=
  if input.slots = 0 ∨ input.devices = [] then
    .error "resource planning requires at least one slot and one device"
  else if ¬ input.backendAvailable then
    .error "requested storage backend is unavailable; fallback is forbidden"
  else
    let policy := resolvePolicy input
    let candidate : Plan :=
      { policy := policy
        backend := input.requestedBackend
        slots := input.slots
        ramCapacityBytes := input.maxRamBytes
        hostGraphMetadataBytes := input.hostGraphMetadataBytes
        qwen4expPleRamBytes := input.qwen4expPleRamBytes
        ioStagingBytes := if policy = .stream then input.ioStagingBytes else 0
        expertPrefillStagingEnabled := policy ≠ .resident &&
          input.requestedExpertPrefillStagingBytesPerDevice ≠ 0 }
    if input.requireExpertPrefillStaging ∧ ¬ candidate.expertPrefillStagingEnabled then
      .error "required expert prefill staging needs a non-resident MoE memory policy"
    else
      (planRam input candidate).bind fun candidate =>
      (contextBounds input).bind fun bounds => .ok (candidate, bounds)

/-- Search with the optional prefill staging and, where that fails, without it. -/
def chooseContext (fuel : Nat) (input : PlanInput) (bounds : ContextBounds) (candidate : Plan) :
    Option (Except String (Plan × Bool)) :=
  (findContext fuel input bounds candidate (qualitiesDescending input.minKvQuality) none).bind
    fun
    | some best => some (.ok (best, false))
    | none =>
      if candidate.expertPrefillStagingEnabled ∧ ¬ input.requireExpertPrefillStaging then
        (findContext fuel input bounds { candidate with expertPrefillStagingEnabled := false }
          (qualitiesDescending input.minKvQuality) none).map fun
          | some best => .ok (best, true)
          | none => .error
            "no context fits without crossing the declared KV quality floor and device reserves"
      else if input.requireExpertPrefillStaging ∧ candidate.expertPrefillStagingEnabled then
        some (.error ("required expert prefill staging does not fit without crossing the " ++
          "context/KV floor or device reserves"))
      else
        some (.error
          "no context fits without crossing the declared KV quality floor and device reserves")

/-- The transient policy that the configured modules ask for and the bytes it keeps. -/
def chooseTransient (input : PlanInput) (headroom : Nat) :
    Except String (TransientPolicy × Nat) :=
  if input.mtpBytes ≠ 0 ∧ input.multimodalBytes ≠ 0 then
    if headroom < max input.mtpBytes input.multimodalBytes then
      .error "configured shared transient modules do not fit while preserving the device reserve"
    else .ok (.shared, max input.mtpBytes input.multimodalBytes)
  else if input.mtpBytes ≠ 0 then
    if headroom < input.mtpBytes then
      .error "configured MTP transient module does not fit while preserving the device reserve"
    else .ok (.mtpOnly, input.mtpBytes)
  else if input.multimodalBytes ≠ 0 then
    if headroom < input.multimodalBytes then
      .error ("configured multimodal transient module does not fit while preserving the " ++
        "device reserve")
    else .ok (.multimodalOnly, input.multimodalBytes)
  else .ok (.off, 0)

/-- Give a row its transient bytes and, from what is left, its expert cache. -/
def finishRow (input : PlanInput) (plan : Plan) (row : DevicePlan) : Option DevicePlan :=
  let transient := if row.id = plan.transientDevice then plan.transientCapacityBytes else 0
  (if row.id = plan.transientDevice ∧ plan.transientPolicy = .shared then
      addChecked transient (min input.mtpBytes input.multimodalBytes)
    else some transient).map fun reserve =>
  let expert := if plan.policy = .resident then 0
    else min input.requestedExpertVramBytesPerDevice
      (row.headroomBytes - min row.headroomBytes reserve)
  let planned := u64Add row.plannedBytes (u64Add transient expert)
  { row with
    transientBytes := transient
    expertCacheBytes := expert
    plannedBytes := planned
    headroomBytes := u64Sub (u64Sub row.capacityBytes row.reserveBytes) planned }

/-- Shrink the caches until the host row and the RAM fields fit the RAM budget. -/
def reconcileHost (input : PlanInput) (plan : Plan) : Except String Plan :=
  match plan.devices.find? (·.id < 0) with
  | none => .ok plan
  | some host =>
    if input.maxRamBytes = 0 then .ok plan
    else
      match addChecked plan.ramPlannedBytes
          (host.plannedBytes - min host.plannedBytes input.denseRamBytes) with
      | none => .error "host RAM plan overflows 64-bit accounting"
      | some combined =>
        let excess := if input.maxRamBytes < combined then combined - input.maxRamBytes else 0
        let auxReduction := min excess plan.auxRamBytes
        let plan := { plan with
          auxRamBytes := plan.auxRamBytes - auxReduction
          ramPlannedBytes := u64Sub plan.ramPlannedBytes auxReduction }
        let excess := excess - auxReduction
        if excess ≠ 0 ∧ plan.policy ≠ .resident then
          let expertReduction := min excess plan.expertRamBytes
          let expert := plan.expertRamBytes - expertReduction
          let planned := u64Sub plan.ramPlannedBytes expertReduction
          let excess := excess - expertReduction
          -- a cache below the smallest useful one is given up
          let dropped := expert ≠ 0 ∧ expert < input.minExpertRamBytes
          if excess ≠ 0 then .error "host weights, KV, and workspace exceed --max-ram"
          else .ok { plan with
            expertRamBytes := if dropped then 0 else expert
            ramPlannedBytes := if dropped then u64Sub planned expert else planned }
        else if excess ≠ 0 then .error "host weights, KV, and workspace exceed --max-ram"
        else .ok plan

def planReason (plan : Plan) (stagingDropped : Bool) : String :=
  "deterministic " ++ memoryPolicyName plan.policy ++ " plan at " ++ kvQualityName plan.kvQuality ++
    " KV quality with explicit per-device reserves" ++
    if stagingDropped then
      "; optional expert prefill staging disabled to preserve the context/KV floor"
    else ""

/-- Everything after the search: the transient modules, the expert caches, the host. -/
def finish (input : PlanInput) (found : Plan) (stagingDropped : Bool) : Except String Plan :=
  let batch := max 1 (min input.requestedBatch found.context)
  let transientDevice := if input.transientDevice < 0
    then (found.devices.head?.map (·.id)).getD 0 else input.transientDevice
  let host := found.devices.find? (·.id = transientDevice)
  if max input.mtpBytes input.multimodalBytes ≠ 0 ∧ host = none then
    .error "transient device is not present in the resource plan"
  else
    (chooseTransient input ((host.map (·.headroomBytes)).getD 0)).bind fun choice =>
    let candidate : Plan := { found with
      batch := batch
      ubatch := max 1 (min input.requestedUbatch batch)
      transientDevice := transientDevice
      transientMtpBytes := input.mtpBytes
      transientMultimodalBytes := input.multimodalBytes
      transientPolicy := choice.1
      transientCapacityBytes := choice.2
      transientSwap := choice.1 = .shared
      draftResident := choice.1 = .shared || choice.1 = .mtpOnly }
    if input.requireDraft ∧ ¬ candidate.draftResident then
      .error "required draft allocation does not fit while preserving device reserves"
    else
      match candidate.devices.mapM (finishRow input candidate) with
      | none => .error "shared transient preparation reserve overflows 64-bit bytes"
      | some devices =>
        (reconcileHost input { candidate with devices := devices }).map fun plan =>
          { plan with reason := planReason plan stagingDropped }

def solve (fuel : Nat) (input : PlanInput) : Option (Except String Plan) :=
  match prepare input with
  | .error message => some (.error message)
  | .ok (candidate, bounds) =>
    (chooseContext fuel input bounds candidate).map fun
      | .error message => .error message
      | .ok (found, stagingDropped) => finish input found stagingDropped

end ExpertStreaming.Planner
