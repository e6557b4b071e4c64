import ExpertStreaming.Planner.Sound
import ExpertStreaming.Planner.Rebalance
import ExpertStreaming.Planner.Transition

/-! # The native caller

The launcher turns its parameters and a metadata probe of the model into a planner
input. A plan solved from such an input is a fixed point of the runtime path: the empty
request gives it back and the peak of staying where it is fits. One thing can stand in
the way. The planner aligns the context for the kernels, and a rebalance wants it
divisible by the number of slots.
-/
namespace ExpertStreaming.Planner

open Lib List

/-! ## Building the input -/

variable (text : String)

def parseMemoryPolicy : Option MemoryPolicy :=
  if text = "auto" then some .auto
  else if text = "resident" then some .resident
  else if text = "cache" ∨ text = "hybrid" then some .cache
  else if text = "stream" then some .stream
  else none

def parseResourcePreference : Option ResourcePreference :=
  if text = "balanced" then some .balanced
  else if text = "latency" then some .latency
  else if text = "throughput" then some .throughput
  else none

def parseKvQuality : Option KvQuality :=
  if text = "turbo1" then some .turbo1
  else if text = "turbo2" then some .turbo2
  else if text = "turbo3" then some .turbo3
  else if text = "turbo4" then some .turbo4
  else if text = "turbo8" then some .turbo8
  else if text = "q8" ∨ text = "q8_0" then some .q8
  else if text = "f16" then some .f16
  else none

def parseResourceBackend : Option ResourceBackend :=
  if text = "mmap" then some .mmap
  else if text = "pread" then some .pread
  else if text = "io_uring" then some .ioUring
  else none

/-- The launcher's parameters that reach the planner. -/
structure NativeParams where
  memoryPolicy : String := "auto"
  resourcePreference : String := "balanced"
  minKvQuality : String := "turbo4"
  expertStorageBackend : String := "pread"
  maxRamBytes : Nat := 0
  reserveVramBytes : Nat := 0
  expertRamCacheMib : Int := 0
  expertRamStagingMib : Int := 0
  qwen4expPleCacheMib : Int := 256
  cacheRamMib : Int := 8192
  expertVramCacheMib : Int := 0
  expertPrefillStagingMib : Int := -1
  transientMtpMib : Int := 0
  transientMmprojMib : Int := 0
  hasMtpStage : Bool := false
  nCtx : Int := 0
  maxContext : Nat := 0
  flashAttn : Bool := true
  nParallel : Int := 1
  nBatch : Int := 2048
  nUbatch : Int := 512
  splitModeNone : Bool := false
  mainGpu : Int := 0
  maxExtraAllocMib : Int := 256
  deriving DecidableEq

/-- What the metadata probe of the model tells. A device whose memory cannot be read
is `none`. -/
structure ModelProbe where
  denseRamBytes : Nat := 0
  expertSourceBytes : Nat := 0
  largestExpertComponent : Nat := 0
  largestExpertLayer : Nat := 0
  isQwen4exp : Bool := false
  nCtxTrain : Nat := 0
  graphMetadataBytes : Option Nat := some 0
  cacheQuery : Option (KvQuality → Nat → Nat) := none
  /-- identifier and free bytes of every selected accelerator -/
  devices : List (Option (Nat × Nat)) := []

variable (mib : Int)

/-- `uint64_t(mib)*1024*1024`. -/
def mibBytes : Nat := (mib * 2 ^ 20 % 2 ^ 64).toNat

def positiveMibBytes : Nat := if 0 < mib then mibBytes mib else 0

def cacheLimitBytes (capacityMib : Int) : Nat :=
  if capacityMib ≤ 0 then 0 else mulSaturated capacityMib.toNat (2 ^ 20)

/-- Two lanes of the largest expert layer, rounded up to MiB, unless a size is given. -/
def prefillStagingBytes (params : NativeParams) (probe : ModelProbe) : Except String Nat :=
  if params.expertPrefillStagingMib < 0 then
    if u64Max / 2 < probe.largestExpertLayer then
      .error "two-lane expert prefill staging size overflows 64-bit bytes"
    else if u64Max - (2 ^ 20 - 1) < 2 * probe.largestExpertLayer then
      .error "MiB-aligned expert prefill staging size overflows 64-bit bytes"
    else .ok ((2 * probe.largestExpertLayer + 2 ^ 20 - 1) / 2 ^ 20 * 2 ^ 20)
  else .ok (cacheLimitBytes params.expertPrefillStagingMib)

def usesDevice (params : NativeParams) (index : Nat) : Bool :=
  ¬ params.splitModeNone || (index : Int) = params.mainGpu

def plannedDevices (params : NativeParams) (probe : ModelProbe) : List (Nat × Nat × Nat) :=
  probe.devices.zipIdx.filterMap fun entry =>
    if usesDevice params entry.2 then entry.1.map fun device => (entry.2, device) else none

def acceleratorInput (params : NativeParams) (device : Nat × Nat × Nat) : DeviceInput :=
  { id := device.2.1
    freeBytes := device.2.2
    reserveBytes := params.reserveVramBytes
    graphBytes := positiveMibBytes params.maxExtraAllocMib }

def hostInput (params : NativeParams) (probe : ModelProbe) : DeviceInput :=
  { id := -1
    freeBytes := params.maxRamBytes
    denseBytes := probe.denseRamBytes
    graphBytes := positiveMibBytes params.maxExtraAllocMib }

def nativeContext (params : NativeParams) (probe : ModelProbe) : Nat :=
  if 0 < params.nCtx then params.nCtx.toNat
  else if 0 < params.maxContext then params.maxContext
  else probe.nCtxTrain

def nativeInput (params : NativeParams) (probe : ModelProbe) : Except String PlanInput :=
  match parseMemoryPolicy params.memoryPolicy, parseResourcePreference params.resourcePreference,
      parseKvQuality params.minKvQuality, parseResourceBackend params.expertStorageBackend with
  | some policy, some preference, some floor, some backend =>
    (prefillStagingBytes params probe).bind fun staging =>
    match probe.graphMetadataBytes, probe.cacheQuery with
    | none, _ => .error "cannot forecast native computation graph host metadata"
    | some _, none => .error "cannot retain native cache sizing metadata"
    | some metadata, some query =>
      if probe.devices ≠ [] ∧ params.splitModeNone ∧
          (params.mainGpu < 0 ∨ (probe.devices.length : Int) ≤ params.mainGpu) then
        .error "main GPU index is outside the selected device list"
      else
        let devices := plannedDevices params probe
        let mainDevice := devices.find? fun device => (device.1 : Int) = params.mainGpu
        let mtp := positiveMibBytes params.transientMtpMib
        let multimodal := positiveMibBytes params.transientMmprojMib
        if devices ≠ [] ∧ mainDevice = none ∧ (mtp ≠ 0 ∨ multimodal ≠ 0) then
          .error "cannot resolve the transient main GPU in the selected device list"
        else
          .ok
            { requestedPolicy := policy
              preference := preference
              requestedBackend := backend
              backendAvailable := true
              modelIsMoe := probe.expertSourceBytes ≠ 0
              maxRamBytes := params.maxRamBytes
              denseRamBytes := probe.denseRamBytes
              expertSourceBytes := probe.expertSourceBytes
              requestedExpertRamBytes := cacheLimitBytes params.expertRamCacheMib
              minExpertRamBytes := probe.largestExpertComponent
              qwen4expPleRamBytes :=
                if probe.isQwen4exp then mibBytes params.qwen4expPleCacheMib else 0
              requestedAuxRamBytes := positiveMibBytes params.cacheRamMib
              requestedExpertVramBytesPerDevice :=
                if devices = [] then 0 else cacheLimitBytes params.expertVramCacheMib
              requestedExpertPrefillStagingBytesPerDevice := if devices = [] then 0 else staging
              requireExpertPrefillStaging := 0 < params.expertPrefillStagingMib
              ioStagingBytes :=
                if 0 < params.expertRamStagingMib then mibBytes params.expertRamStagingMib
                else max probe.largestExpertComponent (64 * 2 ^ 20)
              mtpBytes := mtp
              multimodalBytes := multimodal
              transientDevice := (mainDevice.map fun device => (device.2.1 : Int)).getD (-1)
              requireDraft := params.hasMtpStage
              requestedContext := nativeContext params probe
              maxContext := params.maxContext
              minContext := min 512 (nativeContext params probe)
              contextAlignment := if params.flashAttn then 256 else 32
              slots := (max 1 params.nParallel).toNat
              requestedBatch := (max 1 params.nBatch).toNat
              requestedUbatch := (max 1 params.nUbatch).toNat
              minKvQuality := floor
              devices :=
                if devices = [] then [hostInput params probe]
                else devices.map (acceleratorInput params)
              kvBytesForContext := some query
              hostGraphMetadataBytes := metadata }
  | _, _, _, _ => .error "invalid native resource-controller configuration"

/-- Parameters and probe hold machine words. -/
structure NativeInRange (params : NativeParams) (probe : ModelProbe) : Prop where
  maxRam : params.maxRamBytes ≤ u64Max
  reserve : params.reserveVramBytes ≤ u64Max
  context : params.nCtx < 2 ^ 31
  maxContext : params.maxContext ≤ u32Max
  train : probe.nCtxTrain ≤ u32Max
  dense : probe.denseRamBytes ≤ u64Max
  free : ∀ device, some device ∈ probe.devices → device.2 ≤ u64Max
  query : ∀ query ∈ probe.cacheQuery, ∀ quality context, query quality context ≤ u64Max

/-! ## What such an input is -/

theorem mibBytes_le : mibBytes mib ≤ u64Max := by
  have := Int.emod_lt_of_pos (mib * 2 ^ 20) (show (0 : Int) < 2 ^ 64 by decide)
  unfold mibBytes u64Max
  omega

theorem positiveMibBytes_le : positiveMibBytes mib ≤ u64Max := by
  unfold positiveMibBytes
  split
  · exact mibBytes_le mib
  · exact Nat.zero_le _

/-- What the planner is asked by the native caller. -/
structure IsNative (params : NativeParams) (probe : ModelProbe) (input : PlanInput) : Prop where
  query : ∃ query, probe.cacheQuery = some query ∧ input.kvBytesForContext = some query
  maxRam : input.maxRamBytes = params.maxRamBytes
  dense : input.denseRamBytes = probe.denseRamBytes
  mtp : input.mtpBytes ≤ u64Max
  requested : input.requestedContext = nativeContext params probe
  maxContext : input.maxContext = params.maxContext
  alignment : 32 ≤ input.contextAlignment
  slots : 0 < input.slots
  devices : input.devices = [hostInput params probe] ∨
    input.devices = (plannedDevices params probe).map (acceleratorInput params)

variable {params : NativeParams} {probe : ModelProbe} {input : PlanInput} {plan : Plan}
  {row : DevicePlan} {report : PreparationPeak}

theorem nativeInput_spec
    (h : nativeInput params probe = .ok input) : IsNative params probe input := by
  unfold nativeInput at h
  split at h
  next policy preference floor backend _ _ _ _ =>
    obtain ⟨staging, -, h⟩ := except_bind_eq_ok.mp h
    split at h
    · cases h
    · cases h
    next metadata query _ hquery =>
    split at h
    · cases h
    dsimp only at h
    split at h
    · cases h
    cases h
    refine ⟨⟨query, hquery, rfl⟩, rfl, rfl, positiveMibBytes_le _, rfl, rfl, ?_, ?_, ?_⟩
    · dsimp only
      split
      · decide
      · decide
    · dsimp only
      omega
    · dsimp only
      split
      · exact .inl rfl
      · exact .inr rfl
  · cases h

theorem mem_plannedDevices {device} (h : device ∈ plannedDevices params probe) :
    some device.2 ∈ probe.devices := by
  simp only [plannedDevices, mem_filterMap] at h
  obtain ⟨⟨entry, index⟩, hmem, h⟩ := h
  split at h
  · simp only [Option.map_eq_some_iff] at h
    obtain ⟨found, rfl, rfl⟩ := h
    exact fst_mem_of_mem_zipIdx hmem
  · cases h

theorem IsNative.inRange
    (h : IsNative params probe input) (hrange : NativeInRange params probe) : input.InRange := by
  have hrows : ∀ device ∈ input.devices, device.freeBytes ≤ u64Max ∧
      device.reserveBytes ≤ u64Max := by
    intro device hdevice
    rcases h.devices with hhost | haccelerators
    · rw [hhost, mem_singleton] at hdevice
      rw [hdevice]
      exact ⟨hrange.maxRam, Nat.zero_le _⟩
    · rw [haccelerators] at hdevice
      obtain ⟨planned, hplanned, rfl⟩ := mem_map.mp hdevice
      exact ⟨hrange.free _ (mem_plannedDevices hplanned), hrange.reserve⟩
  obtain ⟨query, hprobe, hquery⟩ := h.query
  refine ⟨h.maxRam ▸ hrange.maxRam, h.dense ▸ hrange.dense, fun d hd => (hrows d hd).1, h.mtp,
    fun d hd => (hrows d hd).2, ?_, h.maxContext ▸ hrange.maxContext, ?_⟩
  · have hcontext := hrange.context
    have hmax := hrange.maxContext
    have htrain := hrange.train
    rw [h.requested]
    unfold nativeContext u32Max at *
    split
    · omega
    · split
      · exact hmax
      · exact htrain
  · intro found hfound
    rw [hquery] at hfound
    obtain rfl := Option.some.inj (Option.mem_def.mp hfound)
    exact hrange.query query hprobe

theorem accelerator_id_nonneg {device}
    (h : device ∈ (plannedDevices params probe).map (acceleratorInput params)) : 0 ≤ device.id := by
  obtain ⟨planned, -, rfl⟩ := mem_map.mp h
  exact Int.natCast_nonneg _

theorem IsNative.hostRowsMatch (h : IsNative params probe input) : input.HostRowsMatch := by
  right
  rcases h.devices with hhost | haccelerators
  · rw [hhost, filter_cons, filter_nil]
    split
    · exact ⟨.inr (Nat.le_of_eq h.dense), by simp⟩
    · exact trivial
  · have hnone : ∀ device ∈ input.devices, ¬ device.id < 0 := fun device hdevice =>
      Int.not_lt.mpr (accelerator_id_nonneg (haccelerators ▸ hdevice))
    rw [filter_eq_nil_iff.mpr (by simpa using hnone)]
    exact trivial

theorem IsNative.searchEnds
    (h : IsNative params probe input) (hrange : NativeInRange params probe) :
    input.SearchEnds := by
  have hin := h.inRange hrange
  have hceiling : input.ceiling ≤ u32Max := by
    have := hin.requested
    have := hin.limit
    unfold PlanInput.ceiling
    split
    · assumption
    · split
      · assumption
      · omega
  have halign := h.alignment
  have hdiv : input.ceiling / max 1 input.contextAlignment ≤ input.ceiling / 32 :=
    Nat.div_le_div_left (by omega) (by decide)
  refine searchEnds_of_lt hin ?_
  unfold u32Max at *
  omega

/-! ## A solved plan on the runtime path -/

/-- What the runtime path needs of a plan to give it back. -/
structure Settled (plan : Plan) : Prop where
  devices : plan.devices ≠ []
  slots : 0 < plan.slots
  context : plan.slots ≤ plan.context
  native : plan.kvNativeSizing = true
  query : ∃ query, plan.kvBytesForContext = some query ∧ query plan.context = plan.kvTotal
  kv : 0 < plan.kvTotal ∧ plan.kvTotal < u64Max
  planned : ∀ row ∈ plan.devices, row.plannedBytes = row.parts.sum
  headroom : ∀ row ∈ plan.devices,
    row.reserveBytes + row.plannedBytes + row.headroomBytes = row.capacityBytes
  capacity : ∀ row ∈ plan.devices, row.capacityBytes ≤ u64Max
  shared : plan.transientPolicy = .shared → ∀ row ∈ plan.devices,
    row.id = plan.transientDevice →
      min plan.transientMtpBytes plan.transientMultimodalBytes ≤ row.headroomBytes
  metadata : plan.hostGraphMetadataBytes ≤ plan.ramPlannedBytes
  contextMetadata : plan.hostContextMetadataBytes = 0
  graphWorkspace : plan.hostGraphWorkspaceBytes = 0
  ram : plan.ramCapacityBytes ≤ u64Max
  budget : plan.ramCapacityBytes ≠ 0 → plan.ramPlannedBytes ≤ plan.ramCapacityBytes
  /-- the host row is alone, and is the RAM budget -/
  host : (∀ row ∈ plan.devices, 0 ≤ row.id) ∨ ∃ row, plan.devices = [row] ∧
    row.capacityBytes = plan.ramCapacityBytes ∧ row.reserveBytes = 0 ∧
    (plan.ramCapacityBytes ≠ 0 →
      plan.ramPlannedBytes + (row.plannedBytes - row.denseBytes) ≤ plan.ramCapacityBytes)

/-- A host row that is the only device has all the non-weight bytes of the host. -/
theorem only_host_row {device : DeviceInput}
    (h : Forall₂ (FinishedRow plan) [device] plan.devices) (hid : device.id < 0) :
    ∃ row, plan.devices = [row] ∧ FinishedRow plan device row ∧
      plan.hostNonWeight = row.plannedBytes - row.denseBytes := by
  cases hdevices : plan.devices with
  | nil => rw [hdevices] at h; cases h
  | cons row rest =>
    rw [hdevices] at h
    cases h with
    | cons hfin hrest =>
      cases hrest
      rw [← hfin.id_eq] at hid
      refine ⟨row, rfl, hfin, ?_⟩
      simp [Plan.hostNonWeight, Plan.hostRows, hdevices, hid]

theorem settled_of_native {fuel} (hrange : NativeInRange params probe)
    (hinput : nativeInput params probe = .ok input) (h : solve fuel input = some (.ok plan)) :
    Settled plan := by
  have hnative := nativeInput_spec hinput
  have hin := hnative.inRange hrange
  obtain ⟨bounds, base, found, hprepared, hbounds, hchosen, hfinished, -⟩ := solve_spec hin h
  have hsound := solve_sound hin hnative.hostRowsMatch (hnative.searchEnds hrange) h
  obtain ⟨query, -, hquery⟩ := hnative.query
  have hallocated := hchosen.allocated
  have hquality : plan.kvQuality = found.kvQuality := by rw [hfinished.frame]
  have hcontext : plan.context = found.context := by rw [hfinished.frame]
  have hslots : plan.slots = input.slots :=
    ((congrArg Plan.slots hfinished.frame).trans
      ((congrArg Plan.slots hallocated.frame).trans rfl)).trans hprepared.slots
  have hcapacity : plan.ramCapacityBytes = input.maxRamBytes :=
    ((congrArg Plan.ramCapacityBytes hfinished.frame).trans
      ((congrArg Plan.ramCapacityBytes hallocated.frame).trans rfl)).trans hprepared.capacity
  have hbase : found.ramPlannedBytes = base.ramPlannedBytes := by rw [hallocated.frame]
  have hkv : plan.kvTotal = input.kvBytes found.kvQuality found.context := by
    rw [hsound.shares, hquality, hcontext]
  have hsize : input.kvBytes found.kvQuality found.context =
      query found.kvQuality found.context := by
    rw [PlanInput.kvBytes, hquery]
  have hpositive := hallocated.positive
  have hsmall := hallocated.small
  have hrow : ∀ row ∈ plan.devices, ∃ source ∈ input.devices, FinishedRow plan source row :=
    fun row hmem => exists_of_forall₂_right hfinished.rows hmem
  have hram := hfinished.ram
  unfold RamSum at hram
  refine ⟨fun hnil => ?_, hslots ▸ hnative.slots, ?_, ?_, ⟨query found.kvQuality, ?_, ?_⟩,
    by omega, fun row hmem => ?_, fun row hmem => ?_, fun row hmem => ?_, fun hs row hmem => ?_,
    by omega, ?_, ?_, hcapacity ▸ hin.maxRam, fun hne => ?_, ?_⟩
  · rw [Plan.kvTotal, hnil, map_nil, sum_nil] at hkv
    omega
  · have := hsound.minimum
    omega
  · refine (congrArg Plan.kvNativeSizing hfinished.frame).trans
      ((congrArg Plan.kvNativeSizing hallocated.frame).trans ?_)
    dsimp only
    rw [hquery]
    rfl
  · exact ((congrArg Plan.kvBytesForContext hfinished.frame).trans rfl).trans
      (hallocated.query query hquery)
  · rw [hcontext, hkv, hsize]
  · exact (hrow row hmem).elim fun _ hsource => hsource.2.planned
  · exact (hrow row hmem).elim fun _ hsource => hsource.2.headroom
  · obtain ⟨source, hsource, hfin⟩ := hrow row hmem
    rw [hfin.capacity]
    exact hin.free source hsource
  · exact (hrow row hmem).elim fun _ hsource => hsource.2.swap hs
  · exact ((congrArg Plan.hostContextMetadataBytes hfinished.frame).trans
      ((congrArg Plan.hostContextMetadataBytes hallocated.frame).trans rfl)).trans
        hprepared.contextMetadata
  · exact ((congrArg Plan.hostGraphWorkspaceBytes hfinished.frame).trans
      ((congrArg Plan.hostGraphWorkspaceBytes hallocated.frame).trans rfl)).trans
        hprepared.graphWorkspace
  · have hle := hfinished.le
    have hbudget := hprepared.budget (hcapacity ▸ hne)
    omega
  · rcases hnative.devices with hhost | haccelerators
    · right
      obtain ⟨row, hdevices, hfin, hnonWeight⟩ := only_host_row (hhost ▸ hfinished.rows)
        (show (-1 : Int) < 0 by decide)
      refine ⟨row, hdevices, by rw [hfin.capacity, hcapacity, hnative.maxRam]; rfl,
        by rw [hfin.reserve]; rfl, fun hne => ?_⟩
      have hhostRam := hsound.host (hcapacity ▸ hne)
      omega
    · left
      intro row hmem
      obtain ⟨source, hsource, hfin⟩ := hrow row hmem
      rw [hfin.id_eq]
      exact accelerator_id_nonneg (haccelerators ▸ hsource)

/-! ### The empty request -/

theorem scaleKv_self {total kv} (hpos : 0 < total) (hle : kv ≤ total) (htotal : total ≤ u64Max) :
    scaleKv true (total, total) kv = some kv := by
  have hsome : ∃ r, scaleKv true (total, total) kv = some r := ⟨_, rfl⟩
  obtain ⟨r, hr⟩ := hsome
  rw [hr, scaleKv_native (by exact hpos) (by exact hle) (by exact htotal) hr]
  exact congrArg some (mul_ceilDiv_cancel hpos kv)

theorem retargetRow_empty (plan : Plan) (row : DevicePlan) :
    retargetRow plan {} row.kvBytes row = row := by
  simp [retargetRow]

theorem Settled.totalRow_eq (h : Settled plan)
    (hmem : row ∈ plan.devices) : totalRow plan row = .ok row := by
  have hplanned := h.planned row hmem
  have hheadroom := h.headroom row hmem
  have hcapacity := h.capacity row hmem
  have hsum : sumChecked 0 row.parts = some row.plannedBytes :=
    (sumChecked_eq_some (Nat.zero_le _)).mpr ⟨by omega, by omega⟩
  have husable : row.usable = row.plannedBytes + row.headroomBytes := by
    unfold DevicePlan.usable
    omega
  have hswap : ¬ (plan.transientPolicy = .shared ∧ row.id = plan.transientDevice ∧
      row.usable - row.plannedBytes <
        min plan.transientMtpBytes plan.transientMultimodalBytes) := by
    rintro ⟨hshared, hid, hlt⟩
    have := h.shared hshared row hmem hid
    omega
  have hleft : row.usable - row.plannedBytes = row.headroomBytes := by omega
  simp only [totalRow, hsum]
  rw [if_neg (by omega), if_neg hswap, hleft]

theorem Settled.rebalanceRow_eq (h : Settled plan) (hmem : row ∈ plan.devices) :
    rebalanceRow plan {} (plan.kvTotal, plan.kvTotal) row = .ok row := by
  have hheadroom := h.headroom row hmem
  have hscale : scaleKv plan.kvNativeSizing (plan.kvTotal, plan.kvTotal) row.kvBytes =
      some row.kvBytes := by
    rw [h.native]
    exact scaleKv_self h.kv.1 (le_sum_of_mem (mem_map_of_mem hmem))
      (Nat.le_of_lt h.kv.2)
  unfold rebalanceRow
  rw [if_neg (by omega)]
  simp only [hscale, retargetRow_empty]
  exact h.totalRow_eq hmem

theorem Settled.kvRatio_eq (h : Settled plan) :
    kvRatio plan plan.context = .ok (plan.kvTotal, plan.kvTotal) := by
  obtain ⟨query, hquery, hsize⟩ := h.query
  obtain ⟨hpos, hlt⟩ := h.kv
  have hsum : sumChecked 0 (plan.devices.map (·.kvBytes)) = some plan.kvTotal :=
    (sumChecked_eq_some (Nat.zero_le _)).mpr ⟨Nat.zero_add _, Nat.le_of_lt hlt⟩
  unfold kvRatio
  rw [if_pos h.native]
  simp only [hquery, hsize, hsum]
  rw [if_neg (by omega), if_neg (by omega)]

theorem Settled.checkTarget_eq (h : Settled plan) :
    checkTarget {} plan = .ok plan := by
  unfold checkTarget
  rw [if_neg (by simp), if_neg (by simp)]
  cases hfind : plan.devices.find? (·.id < 0) with
  | none => rfl
  | some host =>
    have hid : host.id < 0 := by simpa using find?_some hfind
    dsimp only
    split
    · rfl
    next hne =>
    rcases h.host with haccelerators | ⟨row, hrow, -, -, hbudget⟩
    · exact absurd (haccelerators host (mem_of_find?_eq_some hfind)) (by omega)
    · have hhost : host = row := by
        have := mem_of_find?_eq_some hfind
        rw [hrow] at this
        exact mem_singleton.mp this
      have hle := hbudget hne
      have hcapacity := h.ram
      have hmin : host.plannedBytes - min host.plannedBytes host.denseBytes =
          row.plannedBytes - row.denseBytes := by
        rw [hhost]
        omega
      have hsum : addChecked plan.ramPlannedBytes (row.plannedBytes - row.denseBytes) =
          some (plan.ramPlannedBytes + (row.plannedBytes - row.denseBytes)) :=
        (addChecked_eq_some (by omega)).mpr ⟨rfl, by omega⟩
      rw [hmin, hsum]
      dsimp only
      rw [if_neg (by omega)]

/-- **The empty request gives a settled plan back**, where its context divides. -/
theorem Settled.rebalance_eq (h : Settled plan) (hslots : plan.context % plan.slots = 0) :
    rebalanceTarget plan {} = .ok { plan with reason := rebalanceReason } := by
  have hcontext := h.context
  have hpos := h.slots
  have htarget : RebalanceRequest.target {} plan = plan.context := rfl
  have hrows : plan.devices.mapM (rebalanceRow plan {} (plan.kvTotal, plan.kvTotal)) =
      .ok plan.devices := by
    apply mapM_eq_ok_of_forall₂
    rw [forall₂_same]
    exact fun row hmem => h.rebalanceRow_eq hmem
  have hcomplete : ¬ (plan.context = 0 ∨ plan.slots = 0 ∨ plan.devices = []) := by
    rintro (hzero | hzero | hnil)
    · omega
    · omega
    · exact h.devices hnil
  unfold rebalanceTarget
  rw [if_neg hcomplete, htarget, if_neg (by omega), if_neg (by simp)]
  have hretarget : retarget plan {} = .ok plan := rfl
  rw [hretarget, h.kvRatio_eq]
  simp only [Except.bind, hrows]
  rw [h.checkTarget_eq]
  rfl

theorem rebalance_error (h : Settled plan) (hslots : plan.context % plan.slots ≠ 0) :
    rebalanceTarget plan {} =
      .error "target context must provide an equal whole-token capacity for every slot" := by
  have hcontext := h.context
  have hpos := h.slots
  have hcomplete : ¬ (plan.context = 0 ∨ plan.slots = 0 ∨ plan.devices = []) := by
    rintro (hzero | hzero | hnil)
    · omega
    · omega
    · exact h.devices hnil
  unfold rebalanceTarget
  rw [if_neg hcomplete, if_pos (.inr hslots)]

/-! ### The peak of staying -/

theorem mem_zip_self {row : DevicePlan × DevicePlan} {rows : List DevicePlan}
    (h : row ∈ rows.zip rows) : row.1 ∈ rows ∧ row.2 = row.1 := by
  rw [zip_eq_zipWith, zipWith_self] at h
  obtain ⟨found, hfound, rfl⟩ := mem_map.mp h
  exact ⟨hfound, rfl⟩

theorem checkRows_self {pairs} (h : ∀ pair ∈ pairs, pair.2 = pair.1) :
    checkRows pairs = .ok () := by
  induction pairs with
  | nil => rfl
  | cons head rest ih =>
    obtain ⟨live, next⟩ := head
    obtain rfl : next = live := h (live, next) mem_cons_self
    simp only [checkRows, ne_eq, not_true_eq_false, or_self, if_false]
    exact ih fun pair hpair => h pair (mem_cons_of_mem _ hpair)

theorem any_ne_self {f : DevicePlan → Nat} (plan : Plan) :
    ((pairedRows plan plan).any fun pair => f pair.1 ≠ f pair.2) = false := by
  rw [any_eq_false]
  intro pair hpair
  have := (mem_zip_self hpair).2
  simp [this]

theorem Settled.checkPlans_eq (h : Settled plan) : checkPlans plan plan = .ok () := by
  have hmetadata := h.metadata
  have hcontext := h.contextMetadata
  have hworkspace := h.graphWorkspace
  unfold checkPlans
  rw [if_neg (by simpa using h.devices), if_neg (by simp), if_neg (by omega), if_neg (by simp)]

def restingPeak (row : DevicePlan) : DevicePeak :=
  { id := row.id
    capacityBytes := row.capacityBytes
    reserveBytes := row.reserveBytes
    currentLiveBytes := row.plannedBytes
    targetLiveBytes := row.plannedBytes
    peakBytes := row.plannedBytes
    peakHeadroomBytes := row.usable - row.plannedBytes }

theorem Settled.devicePeak_eq (h : Settled plan)
    (hmem : row ∈ plan.devices) (device : Int) (peak : Nat) :
    devicePeak ⟨false, false, false, device, peak⟩ row row = .ok (restingPeak row) := by
  have hplanned := h.planned row hmem
  have hheadroom := h.headroom row hmem
  have hcapacity := h.capacity row hmem
  have hsum : sumChecked 0 row.parts = some row.plannedBytes :=
    (sumChecked_eq_some (Nat.zero_le _)).mpr ⟨by omega, by omega⟩
  have hpeak : sumChecked row.plannedBytes [0, 0, 0] = some row.plannedBytes :=
    (sumChecked_eq_some (by omega)).mpr ⟨by simp, by omega⟩
  have husable : row.plannedBytes ≤ row.usable := by
    unfold DevicePlan.usable
    omega
  unfold devicePeak
  rw [if_neg (by omega)]
  simp only [hsum, ne_eq, not_true_eq_false, or_self, if_false, Bool.false_eq_true,
    Bool.false_and, hpeak]
  rw [if_neg (by omega), if_neg (by omega)]
  rfl

theorem tallyHost_accelerators {rows} (tally : RamTally) (h : ∀ row ∈ rows, 0 ≤ row.1.id) :
    tallyHost tally rows = .ok tally := by
  induction rows with
  | nil => rfl
  | cons row rest ih =>
    rw [tallyHost, if_pos (h row mem_cons_self)]
    exact ih fun r hr => h r (mem_cons_of_mem _ hr)

theorem tallyHost_host {tally} (hid : row.id < 0) (hgraph : tally.graph = 0)
    (hcurrent : tally.current = tally.target) (hpeak : tally.peak = tally.target)
    (hplanned : row.plannedBytes = row.parts.sum)
    (hmax : tally.target + (row.plannedBytes - row.denseBytes) ≤ u64Max)
    (hrow : row.plannedBytes ≤ u64Max) :
    ∃ out, tallyHost tally [(restingPeak row, row)] = .ok out ∧
      out.usable = min tally.usable row.usable ∧
      out.current = tally.target + (row.plannedBytes - row.denseBytes) ∧
      out.target = tally.target + (row.plannedBytes - row.denseBytes) ∧
      out.peak = tally.target + (row.plannedBytes - row.denseBytes) := by
  simp only [DevicePlan.parts, sum_cons, sum_nil] at hplanned
  have hg : addChecked tally.graph row.graphBytes = some (tally.graph + row.graphBytes) :=
    (addChecked_eq_some (by omega)).mpr ⟨rfl, by omega⟩
  have hsum : addChecked tally.target (row.plannedBytes - row.denseBytes) =
      some (tally.target + (row.plannedBytes - row.denseBytes)) :=
    (addChecked_eq_some (by omega)).mpr ⟨rfl, hmax⟩
  simp only [tallyHost, restingPeak, hcurrent, hpeak, hg, hsum]
  rw [if_neg (by omega)]
  exact ⟨_, rfl, rfl, rfl, rfl, rfl⟩

theorem closeRam_ok {capacity tally} (hcurrent : tally.current ≤ tally.usable)
    (htarget : tally.target ≤ tally.usable) (hpeak : tally.peak ≤ tally.usable) :
    ∃ out, closeRam capacity tally report = .ok out := by
  unfold closeRam
  rw [if_neg (by omega), if_neg (by omega)]
  exact ⟨_, rfl⟩

theorem Settled.ramPeak_ok (h : Settled plan)
    (hdevices : report.devices = plan.devices.map restingPeak) :
    ∃ out, ramPeak plan plan none none 0 0 report = .ok out := by
  unfold ramPeak
  split
  · exact ⟨report, rfl⟩
  next hbudget =>
  have hne : plan.ramCapacityBytes ≠ 0 := fun hzero => hbudget ⟨hzero, rfl, rfl⟩
  have hram := h.ram
  have hplanned := h.budget hne
  rw [hdevices, if_pos hne]
  simp only [addTracked, addNative, Except.bind]
  rcases h.host with haccelerators | ⟨row, hrow, hcapacity, hreserve, hhost⟩
  · rw [tallyHost_accelerators]
    · exact closeRam_ok hplanned hplanned hplanned
    · intro pair hpair
      obtain ⟨row, hrow, heq⟩ := mem_map.mp (of_mem_zip hpair).1
      rw [← heq]
      exact haccelerators row hrow
  · have hmem : row ∈ plan.devices := by rw [hrow]; exact mem_singleton_self row
    by_cases hid : row.id < 0
    · have hle := hhost hne
      have hheadroom := h.headroom row hmem
      rw [hrow]
      obtain ⟨out, hout, husable, hcurrent, htarget, hpeak⟩ := @tallyHost_host row
        ⟨plan.ramCapacityBytes, plan.ramPlannedBytes, plan.ramPlannedBytes, plan.ramPlannedBytes, 0⟩
        hid rfl rfl rfl (h.planned row hmem) (by dsimp only; omega) (by omega)
      dsimp only at hcurrent htarget hpeak
      have hwhole : row.usable = plan.ramCapacityBytes := by
        rw [DevicePlan.usable, hreserve, hcapacity, Nat.sub_zero]
      simp only [hwhole, Nat.min_self] at husable
      simp only [map_cons, map_nil, zip_cons_cons, zip_nil_right, hout]
      exact closeRam_ok (by omega) (by omega) (by omega)
    · rw [hrow, tallyHost_accelerators]
      · exact closeRam_ok hplanned hplanned hplanned
      · intro pair hpair
        obtain rfl := mem_singleton.mp hpair
        exact Int.not_lt.mp hid

/-- **The peak of staying where it is fits a settled plan.** -/
theorem Settled.preparationPeak_ok (h : Settled plan) :
    ∃ report, preparationPeak false false none none plan plan = .ok report := by
  have hkv : preparesKv plan plan = false := by
    rw [preparesKv, any_ne_self]
    simp
  have hexpert : preparesExpertCache false plan plan = false := by
    rw [preparesExpertCache, any_ne_self]
    rfl
  have htransient : preparesTransient false plan plan = false := by
    rw [preparesTransient, any_ne_self]
    simp
  have hadditional : transientAdditionalPeak false plan plan = .ok 0 := by
    rw [transientAdditionalPeak, htransient]
    rfl
  have hrows : (pairedRows plan plan).mapM (fun pair => devicePeak
      ⟨false, false, false, plan.transientDevice, 0⟩ pair.1 pair.2) =
      .ok (plan.devices.map restingPeak) := by
    apply mapM_eq_ok_of_forall₂
    rw [pairedRows, zip_eq_zipWith, zipWith_self, forall₂_map_left_iff,
      forall₂_map_right_iff, forall₂_same]
    exact fun row hmem => h.devicePeak_eq hmem plan.transientDevice 0
  have hcheck : checkRows (pairedRows plan plan) = .ok () :=
    checkRows_self fun pair hpair => (mem_zip_self hpair).2
  simp only [preparationPeak, realizeBoth, realizedPeak, Except.bind, h.checkPlans_eq, hcheck,
    hadditional, hkv, hexpert, htransient, hrows]
  exact h.ramPeak_ok rfl

/-- **A plan solved for the native caller is a fixed point of the runtime rebalance path exactly
if its slots divide its context.** -/
theorem native_plans_are_fixed_points (params : NativeParams) (probe : ModelProbe)
    (input : PlanInput) (fuel : Nat) (plan : Plan) (hrange : NativeInRange params probe)
    (hinput : nativeInput params probe = .ok input) (h : solve fuel input = some (.ok plan)) :
    (∃ report, preparationPeak false false none none plan plan = .ok report) ∧
    (plan.context % plan.slots = 0 →
      rebalanceTarget plan {} = .ok { plan with reason := rebalanceReason }) ∧
    (plan.context % plan.slots ≠ 0 → rebalanceTarget plan {} =
      .error "target context must provide an equal whole-token capacity for every slot") := by
  have hsettled := settled_of_native hrange hinput h
  exact ⟨hsettled.preparationPeak_ok, hsettled.rebalance_eq, rebalance_error hsettled⟩

def smallProbe : ModelProbe :=
  { denseRamBytes := 1000
    cacheQuery := some fun _ context => min (64 * context) u64Max
    devices := [some (0, 2 ^ 30)] }

def smallParams (slots : Int) : NativeParams := { nCtx := 4096, nParallel := slots }

theorem smallParams_inRange (slots : Int) : NativeInRange (smallParams slots) smallProbe := by
  refine ⟨Nat.zero_le _, Nat.zero_le _, by show (4096 : Int) < 2 ^ 31; decide, Nat.zero_le _,
    Nat.zero_le _, by decide, ?_, ?_⟩
  · intro device hdevice
    obtain rfl : device = (0, 2 ^ 30) := by simpa [smallProbe] using hdevice
    decide
  · intro query hquery quality context
    obtain rfl := Option.some.inj hquery
    exact Nat.min_le_right _ _

def smallPlan (params : NativeParams) : Option Plan :=
  (nativeInput params smallProbe).toOption.bind fun input =>
    (solve 20 input).bind Except.toOption

theorem smallPlan_eq_some {params} (h : smallPlan params = some plan) :
    ∃ input, nativeInput params smallProbe = .ok input ∧
      solve 20 input = some (.ok plan) := by
  obtain ⟨input, hinput, h⟩ := Option.bind_eq_some_iff.mp h
  obtain ⟨result, hsolve, h⟩ := Option.bind_eq_some_iff.mp h
  refine ⟨input, ?_, ?_⟩
  · cases hnative : nativeInput params smallProbe with
    | error message => rw [hnative] at hinput; cases hinput
    | ok found => rw [hnative] at hinput; rw [Option.some.inj hinput]
  · rw [hsolve]
    cases result with
    | error message => cases h
    | ok found => rw [Option.some.inj h]

theorem two_slots_are_a_fixed_point :
    ∃ input plan, nativeInput (smallParams 2) smallProbe = .ok input ∧
      solve 20 input = some (.ok plan) ∧ plan.context = 4096 ∧
      rebalanceTarget plan {} = .ok { plan with reason := rebalanceReason } := by
  have hsolved : (smallPlan (smallParams 2)).any (fun plan => decide (plan.context = 4096) &&
      decide (plan.slots = 2)) = true := by decide +kernel
  obtain ⟨plan, hplan, hok⟩ := (Option.any_eq_true _ _).mp hsolved
  simp only [Bool.and_eq_true, decide_eq_true_eq] at hok
  obtain ⟨input, hinput, hsolve⟩ := smallPlan_eq_some hplan
  have hfixed := native_plans_are_fixed_points (smallParams 2) smallProbe input 20 plan
    (smallParams_inRange 2) hinput hsolve
  exact ⟨input, plan, hinput, hsolve, hok.1, hfixed.2.1 (by rw [hok.1, hok.2])⟩

/-- Three slots do not divide the 4096 tokens that were asked for and planned. -/
theorem three_slots_are_refused :
    ∃ input plan, nativeInput (smallParams 3) smallProbe = .ok input ∧
      solve 20 input = some (.ok plan) ∧ plan.context = 4096 ∧ plan.slots = 3 ∧
      rebalanceTarget plan {} =
        .error "target context must provide an equal whole-token capacity for every slot" := by
  have hsolved : (smallPlan (smallParams 3)).any (fun plan => decide (plan.context = 4096) &&
      decide (plan.slots = 3)) = true := by decide +kernel
  obtain ⟨plan, hplan, hok⟩ := (Option.any_eq_true _ _).mp hsolved
  simp only [Bool.and_eq_true, decide_eq_true_eq] at hok
  obtain ⟨input, hinput, hsolve⟩ := smallPlan_eq_some hplan
  have hsettled := settled_of_native (smallParams_inRange 3) hinput hsolve
  exact ⟨input, plan, hinput, hsolve, hok.1, hok.2,
    rebalance_error hsettled (by rw [hok.1, hok.2]; decide)⟩

end ExpertStreaming.Planner
