import ExpertStreaming.Planner.Types
import ExpertStreaming.Lib.Shares
import ExpertStreaming.Lib.Fallible
import Mathlib.Logic.Relation

/-! # Deriving a rebalance target

A running plan is rescaled to another context, another expert cache or another
transient policy. No resource is touched: the target is a plan that the transition
then prepares. The KV bytes of a row are scaled by the ratio of the contexts or, where
the plan has a native size query, by the ratio of the native sizes; either way the
share is rounded up.
-/
namespace ExpertStreaming.Planner

open Lib Option

/-- A zero context leaves the context as it is. -/
structure RebalanceRequest where
  context : Nat := 0
  setExpertCacheBytesPerDevice : Bool := false
  expertCacheBytesPerDevice : Nat := 0
  setTransientPolicy : Bool := false
  transientPolicy : TransientPolicy := .off
  deriving DecidableEq

def RebalanceRequest.target (request : RebalanceRequest) (current : Plan) : Nat :=
  if request.context = 0 then current.context else request.context

def transientCapacity (current : Plan) : TransientPolicy → Except String Nat
  | .off => .ok 0
  | .shared =>
    if current.transientMtpBytes = 0 ∨ current.transientMultimodalBytes = 0 then
      .error "shared transient policy requires configured MTP and multimodal modules"
    else .ok (max current.transientMtpBytes current.transientMultimodalBytes)
  | .mtpOnly =>
    if current.transientMtpBytes = 0 then
      .error "mtp-only transient policy requires a configured MTP module"
    else .ok current.transientMtpBytes
  | .multimodalOnly =>
    if current.transientMultimodalBytes = 0 then
      .error "multimodal-only transient policy requires a configured multimodal module"
    else .ok current.transientMultimodalBytes

/-- The target before its rows: the context and the transient policy. -/
def retarget (current : Plan) (request : RebalanceRequest) : Except String Plan :=
  let target := { current with context := request.target current }
  if request.setTransientPolicy then
    (transientCapacity current request.transientPolicy).map fun capacity =>
      { target with
        transientPolicy := request.transientPolicy
        transientCapacityBytes := capacity
        transientSwap := request.transientPolicy = .shared
        draftResident := request.transientPolicy = .shared || request.transientPolicy = .mtpOnly }
  else .ok target

/-- The ratio by which KV bytes are scaled, as numerator and denominator. -/
def kvRatio (current : Plan) (context : Nat) : Except String (Nat × Nat) :=
  if current.kvNativeSizing then
    match current.kvBytesForContext with
    | none => .error "native cache sizing requires a bound metadata query"
    | some query =>
      if query context = 0 ∨ query context = u64Max then
        .error "target native cache allocation is unavailable or overflows"
      else
        match sumChecked 0 (current.devices.map (·.kvBytes)) with
        | none => .error "current cache allocation overflows"
        | some total =>
          if total = 0 then .error "current cache allocation is empty"
          else .ok (query context, total)
  else .ok (context, current.context)

/-- One row's KV bytes at the target. The native share is rounded up by the reduced
denominator. -/
def scaleKv (native : Bool) (ratio : Nat × Nat) (kv : Nat) : Option Nat :=
  if native then
    let share := mulDivFloor kv ratio.1 ratio.2
    some (if ratio.1 % (ratio.2 / Nat.gcd kv ratio.2) ≠ 0 then u64Add share 1 else share)
  else mulDivCeilChecked kv ratio.1 ratio.2

def retargetRow (target : Plan) (request : RebalanceRequest) (kv : Nat) (device : DevicePlan) :
    DevicePlan :=
  { device with
    kvBytes := kv
    expertCacheBytes :=
      if request.setExpertCacheBytesPerDevice then
        if 0 ≤ device.id then request.expertCacheBytesPerDevice else 0
      else device.expertCacheBytes
    transientBytes :=
      if request.setTransientPolicy then
        if device.id = target.transientDevice then target.transientCapacityBytes else 0
      else device.transientBytes }

def totalRow (target : Plan) (device : DevicePlan) : Except String DevicePlan :=
  match sumChecked 0 device.parts with
  | none => .error "target device plan overflows 64-bit accounting"
  | some planned =>
    if device.usable < planned then
      .error "target KV/expert/transient allocation crosses a device reserve"
    else if target.transientPolicy = .shared ∧ device.id = target.transientDevice ∧
        device.usable - planned <
          min target.transientMtpBytes target.transientMultimodalBytes then
      .error ("target allocation consumes the rollback reserve required for shared " ++
        "transient owner swaps")
    else .ok { device with plannedBytes := planned, headroomBytes := device.usable - planned }

def rebalanceRow (target : Plan) (request : RebalanceRequest) (ratio : Nat × Nat)
    (device : DevicePlan) : Except String DevicePlan :=
  if device.capacityBytes < device.reserveBytes then
    .error "device capacity is below its immutable reserve"
  else
    match scaleKv target.kvNativeSizing ratio device.kvBytes with
    | none => .error "target KV allocation overflows 64-bit accounting"
    | some kv => totalRow target (retargetRow target request kv device)

def checkTarget (request : RebalanceRequest) (target : Plan) : Except String Plan :=
  if request.setExpertCacheBytesPerDevice ∧ 0 < request.expertCacheBytesPerDevice ∧
      ¬ target.devices.any (0 ≤ ·.id) then
    .error "target expert cache requires an accelerator"
  else if request.setTransientPolicy ∧ target.transientCapacityBytes ≠ 0 ∧
      ¬ target.devices.any (·.id = target.transientDevice) then
    .error "serialized transient device is not present in the resource plan"
  else
    match target.devices.find? (·.id < 0) with
    | none => .ok target
    | some host =>
      if target.ramCapacityBytes = 0 then .ok target
      else
        match addChecked target.ramPlannedBytes
            (host.plannedBytes - min host.plannedBytes host.denseBytes) with
        | none => .error "target host weights, caches, KV and workspace exceed the RAM budget"
        | some combined =>
          if target.ramCapacityBytes < combined then
            .error "target host weights, caches, KV and workspace exceed the RAM budget"
          else .ok target

def rebalanceReason : String :=
  "validated runtime KV/expert/transient rebalance target; no resources mutated"

/-- The plan that a request asks for, or the reason why it cannot be had. -/
def rebalanceTarget (current : Plan) (request : RebalanceRequest) : Except String Plan :=
  if current.context = 0 ∨ current.slots = 0 ∨ current.devices = [] then
    .error "current resource plan is incomplete"
  else if request.target current < current.slots ∨
      request.target current % current.slots ≠ 0 then
    .error "target context must provide an equal whole-token capacity for every slot"
  else if request.setExpertCacheBytesPerDevice ∧ 0 < request.expertCacheBytesPerDevice ∧
      current.policy = .resident then
    .error "resident policy has no mutable deferred-expert cache"
  else
    (retarget current request).bind fun target =>
    (kvRatio current (request.target current)).bind fun ratio =>
    (current.devices.mapM (rebalanceRow target request ratio)).bind fun devices =>
    (checkTarget request { target with devices := devices }).map fun target =>
      { target with reason := rebalanceReason }

/-! ## One step -/

/-- A plan's numbers are machine words. -/
structure Plan.InRange (plan : Plan) : Prop where
  context : plan.context ≤ u32Max
  ramPlanned : plan.ramPlannedBytes ≤ u64Max
  kv : ∀ query ∈ plan.kvBytesForContext, ∀ context, query context ≤ u64Max

variable {current target : Plan} {ratio : Nat × Nat} {request : RebalanceRequest}

theorem kvRatio_spec {context} (h : kvRatio current context = .ok ratio) :
    (current.kvNativeSizing = true → ∃ query, current.kvBytesForContext = some query ∧
      ratio = (query context, current.kvTotal) ∧ 0 < current.kvTotal) ∧
    (current.kvNativeSizing = false → ratio = (context, current.context)) := by
  unfold kvRatio at h
  split at h
  next hnative =>
    refine ⟨fun _ => ?_, fun hfalse => absurd hnative (by simp [hfalse])⟩
    split at h
    · cases h
    next query hquery =>
    split at h
    · cases h
    split at h
    · cases h
    next total htotal =>
    split at h
    · cases h
    next hpos =>
    cases h
    obtain ⟨rfl, -⟩ := (sumChecked_eq_some (Nat.zero_le _)).mp htotal
    rw [Nat.zero_add] at hpos ⊢
    exact ⟨query, hquery, rfl, Nat.pos_of_ne_zero hpos⟩
  next hnative =>
    cases h
    exact ⟨fun htrue => absurd htrue hnative, fun _ => rfl⟩

theorem scaleKv_native {kv r} (hpos : 0 < ratio.2) (hkv : kv ≤ ratio.2) (hsize : ratio.1 ≤ u64Max)
    (h : scaleKv true ratio kv = some r) :
    r = kv * ratio.1 ⌈/⌉ ratio.2 := by
  have hfloor : mulDivFloor kv ratio.1 ratio.2 = kv * ratio.1 / ratio.2 := by
    have := mulDivFloor_of_le hkv hsize
    rwa [mulDivFloor, Nat.mul_comm ratio.1] at this
  have hround := div_add_one_eq_ceilDiv (n := kv * ratio.1) hpos
  simp only [scaleKv, if_true, some.injEq, hfloor] at h
  rw [← hround, ← h]
  have hdvd := dvd_mul_iff_div_gcd_dvd (w := kv) (n := ratio.1) hpos
  rw [Nat.dvd_iff_mod_eq_zero, Nat.dvd_iff_mod_eq_zero] at hdvd
  by_cases hexact : kv * ratio.1 % ratio.2 = 0
  · rw [if_neg (not_not.mpr (hdvd.mp hexact)), if_neg (not_not.mpr hexact), Nat.add_zero]
  · rw [if_pos fun hzero => hexact (hdvd.mpr hzero), if_pos hexact]
    -- a share with a fraction is below the whole, so one more does not wrap
    apply u64Add_of_le
    have hlt : kv * ratio.1 / ratio.2 < ratio.1 := by
      apply Nat.div_lt_of_lt_mul
      refine Nat.lt_of_le_of_ne (Nat.mul_le_mul_right _ hkv) fun heq => hexact ?_
      rw [heq, Nat.mul_mod_right]
    omega

structure RebalancedRow (ratio : Nat × Nat) (device row : DevicePlan) : Prop where
  id_eq : row.id = device.id
  capacity : row.capacityBytes = device.capacityBytes
  reserve : row.reserveBytes = device.reserveBytes
  dense : row.denseBytes = device.denseBytes
  kv : row.kvBytes = device.kvBytes * ratio.1 ⌈/⌉ ratio.2
  planned : row.plannedBytes = row.parts.sum
  fits : row.reserveBytes + row.plannedBytes ≤ row.capacityBytes

theorem rebalanceRow_spec {device row}
    (hkv : ∀ kv, scaleKv target.kvNativeSizing ratio device.kvBytes = some kv →
      kv = device.kvBytes * ratio.1 ⌈/⌉ ratio.2)
    (h : rebalanceRow target request ratio device = .ok row) : RebalancedRow ratio device row := by
  unfold rebalanceRow at h
  split at h
  · cases h
  next hcapacity =>
  split at h
  · cases h
  next kv hscaled =>
  unfold totalRow at h
  split at h
  · cases h
  next planned hplanned =>
  split at h
  · cases h
  next hfits =>
  split at h
  · cases h
  cases h
  obtain ⟨rfl, -⟩ := (sumChecked_eq_some (Nat.zero_le _)).mp hplanned
  rw [Nat.zero_add] at hfits ⊢
  refine ⟨rfl, rfl, rfl, rfl, hkv kv hscaled, rfl, ?_⟩
  simp only [DevicePlan.usable, retargetRow] at hfits ⊢
  omega

theorem checkTarget_spec {plan} (hram : plan.ramPlannedBytes ≤ u64Max)
    (h : checkTarget request plan = .ok target) :
    target = plan ∧ (plan.ramCapacityBytes ≠ 0 → ∀ host ∈ plan.devices.find? (·.id < 0),
      plan.ramPlannedBytes + (host.plannedBytes - min host.plannedBytes host.denseBytes) ≤
        plan.ramCapacityBytes) := by
  unfold checkTarget at h
  split at h
  · cases h
  split at h
  · cases h
  split at h
  next hnone =>
    cases h
    exact ⟨rfl, fun _ host hhost => by simp [hnone] at hhost⟩
  next host hhost =>
  split at h
  next hzero =>
    cases h
    exact ⟨rfl, fun hne => absurd hzero hne⟩
  next hne =>
  split at h
  · cases h
  next combined hcombined =>
  obtain ⟨rfl, -⟩ := (addChecked_eq_some hram).mp hcombined
  split at h
  · cases h
  next hle =>
  cases h
  refine ⟨rfl, fun _ row hrow => ?_⟩
  obtain rfl : host = row := some.inj (hhost.symm.trans (mem_def.mp hrow))
  omega

theorem retarget_spec (h : retarget current request = .ok target) :
    target = { current with
      context := request.target current
      transientPolicy := target.transientPolicy
      transientCapacityBytes := target.transientCapacityBytes
      transientSwap := target.transientSwap
      draftResident := target.draftResident } := by
  simp only [retarget] at h
  split at h
  · obtain ⟨capacity, -, rfl⟩ := except_map_eq_ok.mp h
    rfl
  · cases h
    rfl

/-- **One accepted request.** -/
structure RebalancedTo (current : Plan) (request : RebalanceRequest) (target : Plan) : Prop where
  nonzero : current.context ≠ 0
  slots : request.target current % current.slots = 0
  frame : target = { current with
    context := request.target current
    transientPolicy := target.transientPolicy
    transientCapacityBytes := target.transientCapacityBytes
    transientSwap := target.transientSwap
    draftResident := target.draftResident
    devices := target.devices
    reason := target.reason }
  rows : ∃ ratio, kvRatio current (request.target current) = .ok ratio ∧
    List.Forall₂ (RebalancedRow ratio) current.devices target.devices
  host : target.ramCapacityBytes ≠ 0 → ∀ host ∈ target.devices.find? (·.id < 0),
    target.ramPlannedBytes + (host.plannedBytes - min host.plannedBytes host.denseBytes) ≤
      target.ramCapacityBytes

theorem scaleKv_exact {context device r} (hin : current.InRange) (hcontext : context ≤ u32Max)
    (hratio : kvRatio current context = .ok ratio) (hmem : device ∈ current.devices)
    (h : scaleKv current.kvNativeSizing ratio device.kvBytes = some r) :
    r = device.kvBytes * ratio.1 ⌈/⌉ ratio.2 := by
  cases hnative : current.kvNativeSizing with
  | true =>
    obtain ⟨query, hquery, rfl, hpos⟩ := (kvRatio_spec hratio).1 hnative
    rw [hnative] at h
    exact scaleKv_native hpos (List.le_sum_of_mem (List.mem_map_of_mem hmem))
      (hin.kv query hquery context) h
  | false =>
    obtain rfl := (kvRatio_spec hratio).2 hnative
    rw [hnative] at h
    exact mulDivCeilChecked_spec hcontext hin.context h

theorem rebalanceTarget_spec (hin : current.InRange) (hrequest : request.context ≤ u32Max)
    (h : rebalanceTarget current request = .ok target) : RebalancedTo current request target := by
  unfold rebalanceTarget at h
  split at h
  · cases h
  next hcomplete =>
  split at h
  · cases h
  next hslots =>
  split at h
  · cases h
  obtain ⟨next, hnext, h⟩ := except_bind_eq_ok.mp h
  obtain ⟨ratio, hratio, h⟩ := except_bind_eq_ok.mp h
  obtain ⟨devices, hdevices, h⟩ := except_bind_eq_ok.mp h
  obtain ⟨checked, hchecked, rfl⟩ := except_map_eq_ok.mp h
  have hframe := retarget_spec hnext
  have hnative : next.kvNativeSizing = current.kvNativeSizing := by rw [hframe]
  have hplanned : next.ramPlannedBytes = current.ramPlannedBytes := by rw [hframe]
  have hcontext : request.target current ≤ u32Max := by
    unfold RebalanceRequest.target
    split
    · exact hin.context
    · exact hrequest
  obtain ⟨rfl, hhost⟩ := checkTarget_spec (by exact hplanned ▸ hin.ramPlanned) hchecked
  refine ⟨by tauto, by tauto, ?_, ⟨ratio, hratio, ?_⟩, hhost⟩
  · rw [hframe]
  · refine List.Forall₂.imp ?_ ((List.forall₂_and_left _ _).mpr
      ⟨fun device hdevice => hdevice, forall₂_of_mapM_eq_ok hdevices⟩)
    intro device row hrow
    exact rebalanceRow_spec
      (fun kv hkv => scaleKv_exact hin hcontext hratio hrow.1 (hnative ▸ hkv)) hrow.2

/-! ## Chains of targets -/

structure Plan.Accounted (plan : Plan) : Prop where
  planned : ∀ row ∈ plan.devices, row.plannedBytes = row.denseBytes + row.graphBytes +
    row.kvBytes + row.expertCacheBytes + row.expertPrefillStagingBytes + row.transientBytes
  fits : ∀ row ∈ plan.devices, row.reserveBytes + row.plannedBytes ≤ row.capacityBytes
  host : plan.ramCapacityBytes ≠ 0 →
    plan.ramPlannedBytes + plan.hostNonWeight ≤ plan.ramCapacityBytes

def Rebalances (current target : Plan) : Prop :=
  ∃ request : RebalanceRequest, request.context ≤ u32Max ∧
    rebalanceTarget current request = .ok target

/-- What never changes along a chain. -/
structure Plan.SameBasis (first plan : Plan) : Prop where
  native : plan.kvNativeSizing = first.kvNativeSizing
  query : plan.kvBytesForContext = first.kvBytesForContext
  ram : plan.ramPlannedBytes = first.ramPlannedBytes
  capacity : plan.ramCapacityBytes = first.ramCapacityBytes

theorem RebalancedTo.sameBasis
    (h : RebalancedTo current request target) : current.SameBasis target :=
  ⟨(congrArg Plan.kvNativeSizing h.frame).trans rfl,
    (congrArg Plan.kvBytesForContext h.frame).trans rfl,
    (congrArg Plan.ramPlannedBytes h.frame).trans rfl,
    (congrArg Plan.ramCapacityBytes h.frame).trans rfl⟩

theorem RebalancedTo.context_eq
    (h : RebalancedTo current request target) : target.context = request.target current := by
  rw [h.frame]

theorem RebalancedTo.inRange (hin : current.InRange) (hrequest : request.context ≤ u32Max)
    (h : RebalancedTo current request target) : target.InRange := by
  refine ⟨?_, h.sameBasis.ram ▸ hin.ramPlanned, h.sameBasis.query ▸ hin.kv⟩
  rw [h.context_eq, RebalanceRequest.target]
  split
  · exact hin.context
  · exact hrequest

theorem RebalancedTo.hostRows_length (h : RebalancedTo current request target) :
    target.hostRows.length = current.hostRows.length := by
  obtain ⟨ratio, -, hrows⟩ := h.rows
  have hids : current.devices.map (·.id) = target.devices.map (·.id) :=
    map_eq_map_of_forall₂ (fun _ _ hrow => hrow.id_eq.symm) hrows
  have hcount := congrArg (List.countP (· < 0)) hids
  rw [List.countP_map, List.countP_map] at hcount
  rw [Plan.hostRows, Plan.hostRows, ← List.countP_eq_length_filter,
    ← List.countP_eq_length_filter]
  exact hcount.symm

/-- **An accepted request keeps the accounting invariant.** -/
theorem RebalancedTo.accounted (hacc : current.Accounted) (hone : current.hostRows.length ≤ 1)
    (h : RebalancedTo current request target) : target.Accounted := by
  obtain ⟨ratio, -, hrows⟩ := h.rows
  refine ⟨fun row hmem => ?_, fun row hmem => ?_, fun hne => ?_⟩
  · obtain ⟨device, -, hrow⟩ := exists_of_forall₂_right hrows hmem
    rw [hrow.planned]
    simp only [DevicePlan.parts, List.sum_cons, List.sum_nil]
    omega
  · obtain ⟨device, -, hrow⟩ := exists_of_forall₂_right hrows hmem
    exact hrow.fits
  · rw [hostNonWeight_eq (h.hostRows_length ▸ hone)]
    cases hfind : target.devices.find? (·.id < 0) with
    | none =>
      have hfirst := hacc.host (h.sameBasis.capacity ▸ hne)
      have := h.sameBasis.ram
      have := h.sameBasis.capacity
      simp only [map_none, getD_none]
      omega
    | some host =>
      have hbudget := h.host hne host (mem_def.mpr hfind)
      simp only [map_some, getD_some]
      omega

/-- The KV bytes of a target are never below the scaled KV bytes of its plan. -/
theorem RebalancedTo.kvTotal_le (h : RebalancedTo current request target) :
    ∃ ratio, kvRatio current (request.target current) = .ok ratio ∧
      (0 < ratio.2 → current.kvTotal * ratio.1 ⌈/⌉ ratio.2 ≤ target.kvTotal) := by
  obtain ⟨ratio, hratio, hrows⟩ := h.rows
  refine ⟨ratio, hratio, fun hpos => ?_⟩
  have hkv : target.devices.map (·.kvBytes) =
      (current.devices.map (·.kvBytes)).map fun kv => kv * ratio.1 ⌈/⌉ ratio.2 := by
    rw [List.map_map]
    exact (map_eq_map_of_forall₂ (fun _ _ hrow => hrow.kv.symm) hrows).symm
  unfold Plan.kvTotal
  rw [hkv]
  exact ceilDiv_sum_le hpos

theorem RebalancedTo.native_le {query} (hnative : current.kvNativeSizing = true)
    (hquery : current.kvBytesForContext = some query) (h : RebalancedTo current request target) :
    query target.context ≤ target.kvTotal := by
  obtain ⟨ratio, hratio, hle⟩ := h.kvTotal_le
  obtain ⟨found, hfound, rfl, hpos⟩ := (kvRatio_spec hratio).1 hnative
  obtain rfl : query = found := some.inj (hquery.symm.trans hfound)
  refine Nat.le_trans (Nat.le_of_eq ?_) (hle hpos)
  rw [h.context_eq, Nat.mul_comm, mul_ceilDiv_cancel hpos]

/-- What holds of every plan of a chain. -/
structure ChainInv (first plan : Plan) : Prop where
  basis : first.SameBasis plan
  inRange : plan.InRange
  hosts : plan.hostRows.length = first.hostRows.length
  accounted : first.Accounted → first.hostRows.length ≤ 1 → plan.Accounted
  scaled : first.kvNativeSizing = false →
    first.kvTotal * plan.context ⌈/⌉ first.context ≤ plan.kvTotal

theorem ChainInv.step {first plan next} (hfirst : first.context ≠ 0) (hinv : ChainInv first plan)
    (h : Rebalances plan next) : ChainInv first next := by
  obtain ⟨request, hrequest, haccepted⟩ := h
  have hto := rebalanceTarget_spec hinv.inRange hrequest haccepted
  have hbasis := hto.sameBasis
  refine ⟨⟨hbasis.native.trans hinv.basis.native, hbasis.query.trans hinv.basis.query,
    hbasis.ram.trans hinv.basis.ram, hbasis.capacity.trans hinv.basis.capacity⟩,
    hto.inRange hinv.inRange hrequest, hto.hostRows_length.trans hinv.hosts,
    fun hacc hone => hto.accounted (hinv.accounted hacc hone) (hinv.hosts ▸ hone),
    fun hnative => ?_⟩
  obtain ⟨ratio, hratio, hle⟩ := hto.kvTotal_le
  obtain rfl := (kvRatio_spec hratio).2 (hinv.basis.native.trans hnative)
  have hpos : 0 < plan.context := Nat.pos_of_ne_zero hto.nonzero
  rw [hto.context_eq]
  exact Nat.le_trans (ceilDiv_trans (Nat.pos_of_ne_zero hfirst) hpos (hinv.scaled hnative))
    (hle hpos)

theorem chainInv_of_rebalances {first last} (hin : first.InRange)
    (h : Relation.ReflTransGen Rebalances first last) :
    ChainInv first last := by
  induction h with
  | refl =>
    refine ⟨⟨rfl, rfl, rfl, rfl⟩, hin, rfl, fun hacc _ => hacc, fun _ => ?_⟩
    rcases Nat.eq_zero_or_pos first.context with hzero | hpos
    · rw [hzero, ceilDiv_zero]
      exact Nat.zero_le _
    · exact Nat.le_of_eq (mul_ceilDiv_cancel hpos _)
  | tail hchain hstep ih =>
    refine ih.step ?_ hstep
    -- the first step was accepted, or there is none before this one
    rcases Relation.ReflTransGen.cases_head hchain with
      rfl | ⟨second, ⟨request, hrequest, haccepted⟩, -⟩
    · obtain ⟨request, hrequest, haccepted⟩ := hstep
      exact (rebalanceTarget_spec hin hrequest haccepted).nonzero
    · exact (rebalanceTarget_spec hin hrequest haccepted).nonzero

/-- **Chains of rebalance targets keep the accounting and never forecast too little KV.**
Returning to the first context gives no fewer bytes, unless the first plan held more than its
native size. -/
theorem rebalanced_plans_keep_their_kv (first last : Plan) (hin : first.InRange)
    (h : Relation.ReflTransGen Rebalances first last) :
    (first.Accounted → first.hostRows.length ≤ 1 → last.Accounted) ∧
    (first.kvNativeSizing = false →
      first.kvTotal * last.context ⌈/⌉ first.context ≤ last.kvTotal) ∧
    (∀ query, first.kvNativeSizing = true → first.kvBytesForContext = some query →
      Relation.TransGen Rebalances first last → query last.context ≤ last.kvTotal) ∧
    (last.context = first.context →
      (first.kvNativeSizing = false ∨
        ∃ query, first.kvBytesForContext = some query ∧ first.kvTotal ≤ query first.context) →
      first.kvTotal ≤ last.kvTotal) := by
  have hinv := chainInv_of_rebalances hin h
  have hnative : ∀ query, first.kvNativeSizing = true → first.kvBytesForContext = some query →
      Relation.TransGen Rebalances first last → query last.context ≤ last.kvTotal := by
    intro query hsizing hquery hchain
    obtain ⟨plan, hplan, request, hrequest, haccepted⟩ := Relation.TransGen.tail'_iff.mp hchain
    have hbefore := chainInv_of_rebalances hin hplan
    exact (rebalanceTarget_spec hbefore.inRange hrequest haccepted).native_le
      (hbefore.basis.native.trans hsizing) (hbefore.basis.query.trans hquery)
  refine ⟨hinv.accounted, hinv.scaled, hnative, fun hcontext hreturn => ?_⟩
  rcases Relation.reflTransGen_iff_eq_or_transGen.mp h with rfl | hchain
  · exact Nat.le_refl _
  cases hsizing : first.kvNativeSizing with
  | true =>
    obtain ⟨query, hquery, hle⟩ := hreturn.resolve_left (by simp [hsizing])
    exact Nat.le_trans hle (hcontext ▸ hnative query hsizing hquery hchain)
  | false =>
    have hscaled := hinv.scaled hsizing
    obtain ⟨second, ⟨request, hrequest, haccepted⟩, -⟩ := Relation.TransGen.head'_iff.mp hchain
    have hne := (rebalanceTarget_spec hin hrequest haccepted).nonzero
    rwa [hcontext, mul_ceilDiv_cancel (Nat.pos_of_ne_zero hne)] at hscaled

def splitPlan : Plan :=
  { context := 6
    slots := 2
    ramCapacityBytes := 100
    ramPlannedBytes := 10
    devices := [{ id := 0, capacityBytes := 50, kvBytes := 7, plannedBytes := 7 },
      { id := -1, capacityBytes := 80, kvBytes := 5, plannedBytes := 5 }] }

theorem splitPlan_accounted : splitPlan.Accounted :=
  ⟨by decide, by decide, by decide⟩

theorem splitPlan_inRange : splitPlan.InRange :=
  ⟨by decide, by decide, fun query hquery => by cases hquery⟩

/-- Two targets from `splitPlan`, there and back: rounding leaves more, never less. -/
theorem splitPlan_there_and_back :
    ∃ middle last, rebalanceTarget splitPlan { context := 8 } = .ok middle ∧
      rebalanceTarget middle { context := 6 } = .ok last ∧
      last.Accounted ∧ splitPlan.kvTotal ≤ last.kvTotal := by
  have hrun : ((rebalanceTarget splitPlan { context := 8 }).toOption.any fun middle =>
      (rebalanceTarget middle { context := 6 }).toOption.any fun last =>
        decide (last.context = 6)) = true := by decide +kernel
  obtain ⟨middle, hmiddle, hrest⟩ := exists_ok_of_any hrun
  obtain ⟨last, hlast, hcontext⟩ := exists_ok_of_any hrest
  have hchain : Relation.ReflTransGen Rebalances splitPlan last :=
    (Relation.ReflTransGen.single ⟨_, by decide, hmiddle⟩).tail ⟨_, by decide, hlast⟩
  obtain ⟨hacc, -, -, hreturn⟩ := rebalanced_plans_keep_their_kv splitPlan last
    splitPlan_inRange hchain
  exact ⟨middle, last, hmiddle, hlast, hacc splitPlan_accounted (by decide),
    hreturn (of_decide_eq_true hcontext) (.inl rfl)⟩

/-- A plan one byte above its native size, which does not grow with the context. -/
def overForecast : Plan :=
  { context := 6
    slots := 2
    kvNativeSizing := true
    kvBytesForContext := some fun _ => 12
    devices := [{ id := 0, capacityBytes := 50, kvBytes := 13, plannedBytes := 13 }] }

def twoHosts : Plan :=
  { context := 6
    slots := 2
    ramCapacityBytes := 20
    devices := [{ id := -1, capacityBytes := 80 },
      { id := -2, capacityBytes := 80, kvBytes := 20, plannedBytes := 20 }] }

/-- Native sizes can give fewer KV bytes than the first plan held. Of two host rows only the first
is checked against the RAM budget. -/
theorem rebalanced_plans_lose_bytes :
    overForecast.Accounted ∧ twoHosts.Accounted ∧
    (∃ last, rebalanceTarget overForecast {} = .ok last ∧
      last.context = overForecast.context ∧ last.kvTotal < overForecast.kvTotal) ∧
    (∃ last, rebalanceTarget overForecast { context := 12 } = .ok last ∧
      last.kvTotal < overForecast.kvTotal * last.context ⌈/⌉ overForecast.context) ∧
    ∃ last, rebalanceTarget twoHosts { context := 12 } = .ok last ∧ ¬ last.Accounted := by
  refine ⟨⟨by decide, by decide, by decide⟩, ⟨by decide, by decide, by decide⟩, ?_, ?_, ?_⟩
  · have hrun : ((rebalanceTarget overForecast {}).toOption.any fun last =>
        decide (last.context = overForecast.context ∧ last.kvTotal < overForecast.kvTotal)) =
          true := by decide +kernel
    obtain ⟨last, hlast, hless⟩ := exists_ok_of_any hrun
    exact ⟨last, hlast, of_decide_eq_true hless⟩
  · have hrun : ((rebalanceTarget overForecast { context := 12 }).toOption.any fun last =>
        decide (last.kvTotal < overForecast.kvTotal * last.context ⌈/⌉ overForecast.context)) =
          true := by decide +kernel
    obtain ⟨last, hlast, hless⟩ := exists_ok_of_any hrun
    exact ⟨last, hlast, of_decide_eq_true hless⟩
  · have hrun : ((rebalanceTarget twoHosts { context := 12 }).toOption.any fun last =>
        decide (last.ramCapacityBytes ≠ 0 ∧
          last.ramCapacityBytes < last.ramPlannedBytes + last.hostNonWeight)) = true := by
      decide +kernel
    obtain ⟨last, hlast, hover⟩ := exists_ok_of_any hrun
    obtain ⟨hne, hlt⟩ := of_decide_eq_true hover
    exact ⟨last, hlast, fun hacc => absurd (hacc.host hne) (by omega)⟩

end ExpertStreaming.Planner
