import ExpertStreaming.Planner.Types
import ExpertStreaming.Lib.Fallible

/-! # The peak of a preparation

A rebalance keeps the running allocation until every replacement is prepared. The
check of its peak counts, for each device, what is live now, the complete replacement
pools beside it, and what a change of the transient owner can add. Host memory is
counted once more against the RAM budget, with what the tracker observed beyond the
plan and with the native KV rows where the caller has them.
-/
namespace ExpertStreaming.Planner

open Lib

structure DevicePeak where
  id : Int := 0
  capacityBytes : Nat := 0
  reserveBytes : Nat := 0
  currentLiveBytes : Nat := 0
  targetLiveBytes : Nat := 0
  preparedKvBytes : Nat := 0
  preparedExpertCacheBytes : Nat := 0
  preparedTransientBytes : Nat := 0
  peakBytes : Nat := 0
  peakHeadroomBytes : Nat := 0
  deriving DecidableEq

/-- The report of an accepted preparation. -/
structure PreparationPeak where
  preparesKv : Bool := false
  preparesExpertCache : Bool := false
  preparesTransient : Bool := false
  devices : List DevicePeak := []
  ramCapacityBytes : Nat := 0
  ramUsableBytes : Nat := 0
  ramCurrentBytes : Nat := 0
  ramTargetBytes : Nat := 0
  ramPeakBytes : Nat := 0
  ramPeakHeadroomBytes : Nat := 0
  ramTrackedExtraBytes : Nat := 0
  ramHostWeightsLimitBytes : Nat := 0
  ramHostFixedLimitBytes : Nat := 0
  ramHostPleCacheLimitBytes : Nat := 0
  preparedHostMetadataBytes : Nat := 0
  preparedHostStagingBytes : Nat := 0
  deriving DecidableEq

structure HostMemory where
  weightsBytes : Nat := 0
  fixedBytes : Nat := 0
  pleCacheBytes : Nat := 0
  deriving DecidableEq

/-- KV bytes that the runtime placed, or will place, on one device. -/
structure KvRow where
  deviceId : Int
  kvBytes : Nat
  deriving DecidableEq

/-- Native KV placement before and after, with the scratch memory of the migration. -/
structure KvPreparation where
  current : List KvRow := []
  target : List KvRow := []
  hostMetadataBytes : Nat := 0
  hostStagingBytes : Nat := 0
  deriving DecidableEq

/-! ## Native KV rows -/

/-- The KV bytes of the first row for a device; zero where it has none. -/
def kvBytesOf (rows : List KvRow) (id : Int) : Nat :=
  ((rows.find? fun row => row.deviceId = id).map (·.kvBytes)).getD 0

def realizeDevice (rows : List KvRow) (device : DevicePlan) : Except String DevicePlan :=
  match sumChecked 0 device.parts with
  | none => .error "native KV receipt received overflowing device accounting"
  | some oldBytes =>
    if oldBytes ≠ device.plannedBytes then
      .error "native KV receipt received stale device accounting"
    else
      let device := { device with kvBytes := kvBytesOf rows device.id }
      match sumChecked 0 device.parts with
      | none => .error "native KV receipt overflows device accounting"
      | some bytes => .ok { device with
          plannedBytes := bytes
          headroomBytes := if bytes ≤ device.usable then device.usable - bytes else 0 }

def realizeDevices (rows : List KvRow) :
    List Int → List DevicePlan → Except String (List DevicePlan)
  | _, [] => .ok []
  | seen, device :: rest =>
    if device.id < -1 ∨ device.id ∈ seen then
      .error "native KV receipt received invalid resource-plan topology"
    else
      (realizeDevice rows device).bind fun realized =>
      (realizeDevices rows (device.id :: seen) rest).map (realized :: ·)

/-- A plan with the native KV rows in place of its forecast, and the KV bytes of a host without a
row. -/
def realize (plan : Plan) (rows : List KvRow) : Except String (Plan × Nat) :=
  if rows.any (·.deviceId < -1) ∨ ¬ (rows.map (·.deviceId)).Nodup then
    .error "native KV receipt has an invalid or duplicate device ID"
  else
    (realizeDevices rows [] plan.devices).bind fun devices =>
    let unplaced := rows.filter fun row => devices.all (·.id ≠ row.deviceId)
    if unplaced.any (·.deviceId ≠ -1) then
      .error "native KV receipt contains an accelerator outside the resource plan"
    else .ok ({ plan with devices := devices }, kvBytesOf unplaced (-1))

/-! ## What is prepared -/

variable (current target : Plan)

def checkPlans : Except String Unit :=
  if current.devices = [] ∨ current.devices.length ≠ target.devices.length then
    .error "current and target resource plans have different device topologies"
  else if current.ramCapacityBytes ≠ target.ramCapacityBytes ∨
      current.ramPlannedBytes ≠ target.ramPlannedBytes ∨
      current.hostGraphMetadataBytes ≠ target.hostGraphMetadataBytes ∨
      current.hostContextMetadataBytes ≠ target.hostContextMetadataBytes ∨
      current.hostGraphWorkspaceBytes ≠ target.hostGraphWorkspaceBytes then
    .error "runtime rebalance cannot change immutable RAM capacity or reservations"
  else if current.ramPlannedBytes < current.hostGraphMetadataBytes ∨
      current.ramPlannedBytes - current.hostGraphMetadataBytes <
        current.hostContextMetadataBytes ∨
      current.ramPlannedBytes - current.hostGraphMetadataBytes -
        current.hostContextMetadataBytes < current.hostGraphWorkspaceBytes then
    .error "host metadata exceeds the serialized RAM reservation"
  else if current.transientDevice ≠ target.transientDevice ∨
      current.transientMtpBytes ≠ target.transientMtpBytes ∨
      current.transientMultimodalBytes ≠ target.transientMultimodalBytes then
    .error "runtime rebalance cannot change transient topology or module bounds"
  else .ok ()

def checkRows : List (DevicePlan × DevicePlan) → Except String Unit
  | [] => .ok ()
  | (live, next) :: rest =>
    if live.id ≠ next.id ∨ live.capacityBytes ≠ next.capacityBytes ∨
        live.reserveBytes ≠ next.reserveBytes then
      .error "runtime rebalance cannot change device topology, capacity, or reserve"
    else if live.denseBytes ≠ next.denseBytes ∨ live.graphBytes ≠ next.graphBytes ∨
        live.expertPrefillStagingBytes ≠ next.expertPrefillStagingBytes then
      .error "runtime KV/expert rebalance cannot change immutable device allocations"
    else checkRows rest

def pairedRows : List (DevicePlan × DevicePlan) :=
  current.devices.zip target.devices

def preparesKv : Bool :=
  current.context ≠ target.context ||
    (pairedRows current target).any fun pair => pair.1.kvBytes ≠ pair.2.kvBytes

variable (force : Bool)

def preparesExpertCache (current target : Plan) : Bool :=
  force || (pairedRows current target).any fun pair =>
    pair.1.expertCacheBytes ≠ pair.2.expertCacheBytes

def preparesTransient (current target : Plan) : Bool :=
  force || current.transientPolicy ≠ target.transientPolicy ||
    current.transientCapacityBytes ≠ target.transientCapacityBytes ||
    (pairedRows current target).any fun pair => pair.1.transientBytes ≠ pair.2.transientBytes

/-! ## Owners -/

/-- The module that owns the transient memory. -/
inductive TransientOwner where
  | nobody
  | mtp
  | multimodal
  deriving DecidableEq

/-- The owners that can be live under a policy. A forced preparation assumes nothing. -/
def possibleOwners (policy : TransientPolicy) : List TransientOwner :=
  if force then [.nobody, .mtp, .multimodal]
  else
    match policy with
    | .off => [.nobody]
    | .mtpOnly => [.mtp]
    | .multimodalOnly => [.multimodal]
    | .shared => [.mtp, .multimodal]

/-- The owner that a policy leaves when `live` was the owner before it. -/
def targetOwner (policy : TransientPolicy) (live : TransientOwner) : TransientOwner :=
  match policy with
  | .off => .nobody
  | .mtpOnly => .mtp
  | .multimodalOnly => .multimodal
  | .shared => if live = .nobody then .mtp else live

def ownerBytes (plan : Plan) : TransientOwner → Nat
  | .nobody => 0
  | .mtp => plan.transientMtpBytes
  | .multimodal => plan.transientMultimodalBytes

def loadsOwner (live target : TransientOwner) : Bool :=
  target ≠ .nobody && (force || target ≠ live)

def ownerPeak (current : Plan) (policy : TransientPolicy) (live : TransientOwner) :
    Option Nat :=
  if loadsOwner force live (targetOwner policy live) then
    addChecked (ownerBytes current live) (ownerBytes current (targetOwner policy live))
  else some (ownerBytes current live)

/-- What the owner change takes above the transient bytes that the plan counts. -/
def transientAdditionalPeak (current target : Plan) : Except String Nat :=
  if preparesTransient force current target then
    match (possibleOwners force current.transientPolicy).mapM
        (ownerPeak force current target.transientPolicy) with
    | none => .error "transient owner preparation peak overflows 64-bit accounting"
    | some peaks =>
      match current.devices.find? (·.id = current.transientDevice) with
      | none => .error "current resource plan omitted its transient device"
      | some live => .ok (peaks.foldl max 0 - live.transientBytes)
  else .ok 0

/-! ## Devices -/

/-- What is prepared, and what a change of the owner adds. -/
structure Preparing where
  kv : Bool
  expertCache : Bool
  transient : Bool
  transientDevice : Int
  additionalPeak : Nat
  deriving DecidableEq

def devicePeak (preparing : Preparing) (live next : DevicePlan) : Except String DevicePeak :=
  if live.capacityBytes < live.reserveBytes then
    .error "device capacity is below its immutable reserve"
  else
    match sumChecked 0 live.parts with
    | none => .error "current device plan overflows 64-bit accounting"
    | some currentLive =>
      match sumChecked 0 next.parts with
      | none => .error "target device plan overflows 64-bit accounting"
      | some targetLive =>
        if currentLive ≠ live.plannedBytes ∨ targetLive ≠ next.plannedBytes then
          .error "runtime rebalance received stale device planned-byte accounting"
        else if live.usable < currentLive ∨ live.usable < targetLive then
          .error "current or target device plan crosses a device reserve"
        else
          let kv := if preparing.kv then next.kvBytes else 0
          let expert := if preparing.expertCache then next.expertCacheBytes else 0
          let transient := if preparing.transient && live.id = preparing.transientDevice
            then preparing.additionalPeak else 0
          match sumChecked currentLive [kv, expert, transient] with
          | none => .error ("resource preparation peak overflows 64-bit accounting on device " ++
              toString live.id)
          | some peak =>
            if live.usable < peak then
              .error ("resource preparation peak crosses the reserve/headroom on device " ++
                toString live.id ++ ": requires " ++ toString peak ++ " bytes with " ++
                toString live.usable ++ " usable")
            else .ok
              { id := live.id
                capacityBytes := live.capacityBytes
                reserveBytes := live.reserveBytes
                currentLiveBytes := currentLive
                targetLiveBytes := targetLive
                preparedKvBytes := kv
                preparedExpertCacheBytes := expert
                preparedTransientBytes := transient
                peakBytes := peak
                peakHeadroomBytes := live.usable - peak }

/-! ## Host memory -/

/-- The RAM sums while the host rows are added to them. -/
structure RamTally where
  usable : Nat
  current : Nat
  target : Nat
  peak : Nat
  graph : Nat
  deriving DecidableEq

/-- Add the host rows. Their weights are part of the RAM reservation already. -/
def tallyHost : RamTally → List (DevicePeak × DevicePlan) → Except String RamTally
  | tally, [] => .ok tally
  | tally, (device, live) :: rest =>
    if 0 ≤ device.id then tallyHost tally rest
    else
      match addChecked tally.graph live.graphBytes with
      | none => .error "host fixed forecast overflows 64-bit accounting"
      | some graph =>
        match addChecked tally.current (device.currentLiveBytes - live.denseBytes),
            addChecked tally.target (device.targetLiveBytes - live.denseBytes),
            addChecked tally.peak (device.peakBytes - live.denseBytes) with
        | some current, some target, some peak =>
          tallyHost
            { usable := min tally.usable (device.capacityBytes - device.reserveBytes)
              current := current
              target := target
              peak := peak
              graph := graph } rest
        | _, _, _ => .error "RAM preparation peak overflows 64-bit accounting"

/-- Raise the sums to what the tracker observed beyond the reservations. -/
def addObserved (memory : HostMemory) (tally : RamTally)
    (report : PreparationPeak) : Except String (RamTally × PreparationPeak) :=
  if current.reservations ≠ target.reservations then
    .error "tracked host preparation cannot change immutable RAM reservations"
  else
    match sumChecked 0 current.reservations with
    | none => .error "host RAM reservations overflow 64-bit accounting"
    | some other =>
      if current.ramPlannedBytes < other then
        .error "host RAM reservations exceed the serialized total"
      else
        let weightReservation := current.ramPlannedBytes - other
        let weightsLimit := max weightReservation memory.weightsBytes
        match sumChecked tally.graph [current.hostGraphMetadataBytes,
            current.hostContextMetadataBytes, current.hostGraphWorkspaceBytes] with
        | none => .error "host metadata reservation overflows fixed RAM accounting"
        | some fixedReservation =>
          let fixedLimit := max fixedReservation memory.fixedBytes
          let pleLimit := max current.qwen4expPleRamBytes memory.pleCacheBytes
          match sumChecked 0 [weightsLimit - weightReservation, fixedLimit - fixedReservation,
              pleLimit - current.qwen4expPleRamBytes] with
          | none => .error "tracked host floors overflow 64-bit accounting"
          | some extra =>
            match addChecked tally.current extra, addChecked tally.target extra,
                addChecked tally.peak extra with
            | some ramCurrent, some ramTarget, some peak =>
              .ok ({ tally with current := ramCurrent, target := ramTarget, peak := peak },
                { report with
                  ramHostWeightsLimitBytes := weightsLimit
                  ramHostFixedLimitBytes := fixedLimit
                  ramHostPleCacheLimitBytes := pleLimit
                  ramTrackedExtraBytes := extra })
            | _, _, _ => .error "tracked host preparation peak overflows 64-bit accounting"

def addTracked (tracked : Option HostMemory) (tally : RamTally)
    (report : PreparationPeak) : Except String (RamTally × PreparationPeak) :=
  match tracked with
  | none => .ok (tally, report)
  | some memory => addObserved current target memory tally report

/-- Add the KV bytes of a host without a row, and the scratch of the migration. -/
def addReceipt (native : KvPreparation) (extraCurrent extraTarget : Nat) (tally : RamTally)
    (report : PreparationPeak) : Except String (RamTally × PreparationPeak) :=
  match addChecked tally.current extraCurrent, addChecked tally.target extraTarget,
      addChecked tally.peak extraCurrent with
  | some current, some target, some peak =>
    if report.preparesKv then
      match sumChecked peak [extraTarget, native.hostMetadataBytes, native.hostStagingBytes] with
      | none => .error "native preparation scratch or metadata overflows the RAM budget"
      | some peak =>
        .ok ({ tally with current := current, target := target, peak := peak },
          { report with
            preparedHostMetadataBytes := native.hostMetadataBytes
            preparedHostStagingBytes := native.hostStagingBytes })
    else if native.hostMetadataBytes ≠ 0 ∨ native.hostStagingBytes ≠ 0 ∨
        extraCurrent ≠ extraTarget then
      .error "unchanged KV receipt contains replacement allocations"
    else .ok ({ tally with current := current, target := target, peak := peak }, report)
  | _, _, _ => .error "native host KV accounting overflows the RAM budget"

def addNative (native : Option KvPreparation) (extraCurrent extraTarget : Nat) (tally : RamTally)
    (report : PreparationPeak) : Except String (RamTally × PreparationPeak) :=
  match native with
  | none => .ok (tally, report)
  | some rows => addReceipt rows extraCurrent extraTarget tally report

def closeRam (capacity : Nat) (tally : RamTally) (report : PreparationPeak) :
    Except String PreparationPeak :=
  if tally.usable < tally.current ∨ tally.usable < tally.target then
    .error "current or target combined RAM allocations exceed the usable RAM budget"
  else if tally.usable < tally.peak then
    .error ("RAM preparation peak crosses --max-ram or the host reserve: requires " ++
      toString tally.peak ++ " bytes with " ++ toString tally.usable ++ " usable")
  else .ok { report with
    ramCapacityBytes := capacity
    ramUsableBytes := tally.usable
    ramCurrentBytes := tally.current
    ramTargetBytes := tally.target
    ramPeakBytes := tally.peak
    ramPeakHeadroomBytes := tally.usable - tally.peak }

/-- The RAM side of the check. It is made where there is a budget or an observation. -/
def ramPeak (tracked : Option HostMemory) (native : Option KvPreparation)
    (extraCurrent extraTarget : Nat) (report : PreparationPeak) :
    Except String PreparationPeak :=
  if current.ramCapacityBytes = 0 ∧ tracked = none ∧ native = none then .ok report
  else
    (tallyHost
      { usable := if current.ramCapacityBytes ≠ 0 then current.ramCapacityBytes else u64Max
        current := current.ramPlannedBytes
        target := target.ramPlannedBytes
        peak := current.ramPlannedBytes
        graph := 0 } (report.devices.zip current.devices)).bind fun tally =>
    (addTracked current target tracked tally report).bind fun tracked =>
    (addNative native extraCurrent extraTarget tracked.1 tracked.2).bind fun native =>
    closeRam current.ramCapacityBytes native.1 native.2

/-! ## The check -/

def realizedPeak (forceExpertCache forceTransient : Bool) (tracked : Option HostMemory)
    (native : Option KvPreparation) (current target : Plan) (extraCurrent extraTarget : Nat) :
    Except String PreparationPeak :=
  (checkPlans current target).bind fun _ =>
  (checkRows (pairedRows current target)).bind fun _ =>
  (transientAdditionalPeak forceTransient current target).bind fun additional =>
  let preparing : Preparing :=
    { kv := preparesKv current target
      expertCache := preparesExpertCache forceExpertCache current target
      transient := preparesTransient forceTransient current target
      transientDevice := current.transientDevice
      additionalPeak := additional }
  ((pairedRows current target).mapM fun pair => devicePeak preparing pair.1 pair.2).bind
    fun devices =>
  ramPeak current target tracked native extraCurrent extraTarget
    { preparesKv := preparing.kv
      preparesExpertCache := preparing.expertCache
      preparesTransient := preparing.transient
      devices := devices }

/-- Both plans with their native KV rows, and the KV bytes of hosts without a row. -/
def realizeBoth (native : Option KvPreparation) (current target : Plan) :
    Except String ((Plan × Nat) × (Plan × Nat)) :=
  match native with
  | none => .ok ((current, 0), (target, 0))
  | some rows =>
    (realize current rows.current).bind fun realizedCurrent =>
    (realize target rows.target).map fun realizedTarget => (realizedCurrent, realizedTarget)

def preparationPeak (forceExpertCache forceTransient : Bool) (tracked : Option HostMemory)
    (native : Option KvPreparation) (current target : Plan) : Except String PreparationPeak :=
  (realizeBoth native current target).bind fun realized =>
  realizedPeak forceExpertCache forceTransient tracked native realized.1.1 realized.2.1
    realized.1.2 realized.2.2

/-- The call as its caller sees it: whether it accepted, the report and the error. -/
def rebalancePreparationPeak (report : PreparationPeak)
    (forceExpertCache forceTransient : Bool) (tracked : Option HostMemory)
    (native : Option KvPreparation) : Bool × PreparationPeak × String :=
  match preparationPeak forceExpertCache forceTransient tracked native current target with
  | .ok accepted => (true, accepted, "")
  | .error message => (false, report, message)

end ExpertStreaming.Planner
