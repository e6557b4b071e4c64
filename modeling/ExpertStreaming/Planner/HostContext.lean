import ExpertStreaming.Planner.Sound

/-! # Reserving the measured host context

After the model is loaded its host requirements are known. `reserveHostContext` raises the floors
of a plan to them and takes what is missing from the auxiliary reservation, in whole MiB. The KV
bytes of the host live in its device rows; a larger measured amount is charged, and not recorded.
-/
namespace ExpertStreaming.Planner

open Lib List

structure HostRequirements where
  weightsBytes : Nat := 0
  pleCacheBytes : Nat := 0
  fixedBytes : Nat := 0
  kvBytes : Nat := 0
  graphBytes : Nat := 0
  deriving DecidableEq

def mib : Nat := 1024 * 1024

/-- What the host rows hold: workspace, the graph forecast in it, and KV. -/
structure HostRows where
  workspace : Nat := 0
  graph : Nat := 0
  kv : Nat := 0
  deriving DecidableEq

def DevicePlan.workspaceParts (row : DevicePlan) : List Nat :=
  [row.graphBytes, row.expertCacheBytes, row.expertPrefillStagingBytes, row.transientBytes]

def addHostRow (rows : HostRows) (device : DevicePlan) : Except String HostRows :=
  if device.id < 0 then do
    let workspace ← orError "host startup workspace overflows"
      (sumChecked rows.workspace device.workspaceParts)
    let graph ← orError "host graph forecast overflows" (addChecked rows.graph device.graphBytes)
    let kv ← orError "host startup KV overflows" (addChecked rows.kv device.kvBytes)
    .ok { workspace := workspace, graph := graph, kv := kv }
  else .ok rows

/-- `common_resource_plan_reserve_host_context`, up to the assignment of its result. -/
def reserveHostContext (plan : Plan) (required : HostRequirements) : Except String Plan := do
  let reserved ← orError "startup host reservations overflow" (sumChecked 0 plan.reservations)
  unlessError "invalid startup host reservation total"
    (reserved ≤ plan.ramPlannedBytes ∧ plan.ramCapacityBytes ≠ 0)
  let weights := max required.weightsBytes (plan.ramPlannedBytes - reserved)
  -- this return leaves the error text empty
  let metadata ← orError "" (addChecked plan.hostGraphMetadataBytes plan.hostContextMetadataBytes)
  let fixed := max metadata required.fixedBytes
  let ple := max plan.qwen4expPleRamBytes required.pleCacheBytes
  let base ← orError "native startup RAM overflows"
    (sumChecked weights [fixed, ple, plan.expertRamBytes, plan.ioStagingBytes])
  let host ← plan.devices.foldlM addHostRow {}
  let measuredExtra := if host.graph < required.graphBytes then required.graphBytes - host.graph
    else 0
  let graphWorkspace := max plan.hostGraphWorkspaceBytes measuredExtra
  let base ← orError "host graph workspace overflows" (addChecked base graphWorkspace)
  let combined ← orError "native context, weights, KV and workspace exceed --max-ram"
    (sumChecked base [host.workspace, max host.kv required.kvBytes])
  unlessError "native context, weights, KV and workspace exceed --max-ram"
    (combined ≤ plan.ramCapacityBytes)
  let aux := min plan.auxRamBytes (plan.ramCapacityBytes - combined) / mib * mib
  .ok { plan with
    hostContextMetadataBytes := u64Sub fixed plan.hostGraphMetadataBytes
    qwen4expPleRamBytes := ple
    hostGraphWorkspaceBytes := graphWorkspace
    auxRamBytes := aux
    ramPlannedBytes := u64Add base aux }

/-- The call as its caller sees it: whether it succeeded, the plan and the error text. -/
def planReserveHostContext (plan : Plan) (required : HostRequirements) : Bool × Plan × String :=
  match reserveHostContext plan required with
  | .ok out => (true, out, "")
  | .error message => (false, plan, message)

/-! ## What is reserved -/

/-- The sums over the host rows among some devices, in unbounded arithmetic. -/
def hostTotals (devices : List DevicePlan) : HostRows where
  workspace := ((devices.filter (·.id < 0)).map fun row => row.workspaceParts.sum).sum
  graph := ((devices.filter (·.id < 0)).map (·.graphBytes)).sum
  kv := ((devices.filter (·.id < 0)).map (·.kvBytes)).sum

def Plan.hostWeights (plan : Plan) : Nat := plan.ramPlannedBytes - plan.reservations.sum

theorem addHostRow_sum {seen device rows} (h : addHostRow (hostTotals seen) device = .ok rows) :
    rows = hostTotals (seen ++ [device]) := by
  unfold addHostRow at h
  split at h
  next hhost =>
    obtain ⟨workspace, hworkspace, h⟩ := except_bind_eq_ok.mp h
    obtain ⟨graph, hgraph, h⟩ := except_bind_eq_ok.mp h
    obtain ⟨kv, hkv, h⟩ := except_bind_eq_ok.mp h
    obtain rfl := sum_of_sumChecked (orError_eq_ok.mp hworkspace)
    obtain rfl := add_of_addChecked (orError_eq_ok.mp hgraph)
    obtain rfl := add_of_addChecked (orError_eq_ok.mp hkv)
    cases h
    simp [hostTotals, filter_append, hhost]
  next hother =>
    cases h
    simp [hostTotals, filter_append, hother]

theorem hostRows_sum {devices rows} (h : devices.foldlM addHostRow {} = .ok rows) :
    rows = hostTotals devices := by
  have hall : rows = hostTotals ([] ++ devices) :=
    foldlM_seen (I := fun seen rows => rows = hostTotals seen)
      (fun seen device s t hs ht => addHostRow_sum (hs ▸ ht)) (show {} = hostTotals [] from rfl) h
  exact hall

def Plan.weightsFloor (plan : Plan) (required : HostRequirements) : Nat :=
  max required.weightsBytes plan.hostWeights

def Plan.fixedFloor (plan : Plan) (required : HostRequirements) : Nat :=
  max (plan.hostGraphMetadataBytes + plan.hostContextMetadataBytes) required.fixedBytes

/-- The floor of the graph workspace beside the forecast of the host rows. -/
def Plan.graphFloor (plan : Plan) (required : HostRequirements) : Nat :=
  max plan.hostGraphWorkspaceBytes (required.graphBytes - (hostTotals plan.devices).graph)

def Plan.hostBase (plan : Plan) (required : HostRequirements) : Nat :=
  plan.weightsFloor required + plan.fixedFloor required +
    max plan.qwen4expPleRamBytes required.pleCacheBytes + plan.expertRamBytes +
    plan.ioStagingBytes + plan.graphFloor required

/-- The host's workspace and its KV floor, which are outside the RAM fields. -/
def Plan.hostOutside (plan : Plan) (required : HostRequirements) : Nat :=
  (hostTotals plan.devices).workspace + max (hostTotals plan.devices).kv required.kvBytes

def Plan.auxLeft (plan : Plan) (required : HostRequirements) : Nat :=
  min plan.auxRamBytes
    (plan.ramCapacityBytes - (plan.hostBase required + plan.hostOutside required)) / mib * mib

def Plan.reserved (plan : Plan) (required : HostRequirements) : Plan :=
  { plan with
    hostContextMetadataBytes := plan.fixedFloor required - plan.hostGraphMetadataBytes
    qwen4expPleRamBytes := max plan.qwen4expPleRamBytes required.pleCacheBytes
    hostGraphWorkspaceBytes := plan.graphFloor required
    auxRamBytes := plan.auxLeft required
    ramPlannedBytes := plan.hostBase required + plan.auxLeft required }

/-- What a reservation asks of a plan. -/
structure Reservable (plan : Plan) (required : HostRequirements) : Prop where
  reservations : plan.reservations.sum ≤ plan.ramPlannedBytes
  capacity : plan.ramCapacityBytes ≠ 0
  fits : plan.hostBase required + plan.hostOutside required ≤ plan.ramCapacityBytes

theorem auxLeft_le (plan : Plan) (required : HostRequirements) :
    plan.auxLeft required ≤
      plan.ramCapacityBytes - (plan.hostBase required + plan.hostOutside required) :=
  (Nat.div_mul_le_self _ _).trans (Nat.min_le_right _ _)

theorem graphMetadata_le (plan : Plan) (required : HostRequirements) :
    plan.hostGraphMetadataBytes ≤ plan.fixedFloor required := by
  unfold Plan.fixedFloor
  omega

theorem graph_le_workspace (devices : List DevicePlan) :
    (hostTotals devices).graph ≤ (hostTotals devices).workspace := by
  refine sum_le_sum fun row _ => ?_
  simp [DevicePlan.workspaceParts]

theorem measured_eq (graph measured : Nat) :
    (if graph < measured then measured - graph else 0) = measured - graph := by
  split
  · rfl
  · omega

/-- **A reservation that succeeds** found the plan reservable and returns `Plan.reserved`. -/
theorem reserveHostContext_eq_ok {plan out required} (hcap : plan.ramCapacityBytes ≤ u64Max)
    (h : reserveHostContext plan required = .ok out) :
    Reservable plan required ∧ out = plan.reserved required := by
  obtain ⟨reserved, hreserved, h⟩ := except_bind_eq_ok.mp h
  obtain ⟨_, hchecked, h⟩ := except_bind_eq_ok.mp h
  obtain ⟨metadata, hmetadata, h⟩ := except_bind_eq_ok.mp h
  obtain ⟨base₀, hbase₀, h⟩ := except_bind_eq_ok.mp h
  obtain ⟨host, hhost, h⟩ := except_bind_eq_ok.mp h
  obtain ⟨base, hbase, h⟩ := except_bind_eq_ok.mp h
  obtain ⟨combined, hcombined, h⟩ := except_bind_eq_ok.mp h
  obtain ⟨_, hfits, h⟩ := except_bind_eq_ok.mp h
  rw [unlessError_eq_ok] at hchecked hfits
  obtain rfl := sum_of_sumChecked (orError_eq_ok.mp hreserved)
  obtain rfl := add_of_addChecked (orError_eq_ok.mp hmetadata)
  obtain rfl := sum_of_sumChecked (orError_eq_ok.mp hbase₀)
  obtain rfl := hostRows_sum hhost
  rw [measured_eq] at hbase
  obtain rfl := add_of_addChecked (orError_eq_ok.mp hbase)
  obtain rfl := sum_of_sumChecked (orError_eq_ok.mp hcombined)
  rw [Nat.zero_add] at *
  have hbase_eq : max required.weightsBytes (plan.ramPlannedBytes - plan.reservations.sum) +
      [max (plan.hostGraphMetadataBytes + plan.hostContextMetadataBytes) required.fixedBytes,
        max plan.qwen4expPleRamBytes required.pleCacheBytes, plan.expertRamBytes,
        plan.ioStagingBytes].sum +
      max plan.hostGraphWorkspaceBytes (required.graphBytes - (hostTotals plan.devices).graph) =
        plan.hostBase required := by
    simp only [sum_cons, sum_nil, Plan.hostBase, Plan.weightsFloor, Plan.hostWeights,
      Plan.fixedFloor, Plan.graphFloor]
    omega
  have houtside_eq : [(hostTotals plan.devices).workspace,
      max (hostTotals plan.devices).kv required.kvBytes].sum = plan.hostOutside required := by
    simp [Plan.hostOutside]
  rw [hbase_eq, houtside_eq] at hfits h
  rw [measured_eq] at h
  refine ⟨⟨hchecked.1, hchecked.2, hfits⟩, ?_⟩
  have haux := auxLeft_le plan required
  have hcontext : u64Sub (plan.fixedFloor required) plan.hostGraphMetadataBytes =
      plan.fixedFloor required - plan.hostGraphMetadataBytes :=
    u64Sub_of_le (graphMetadata_le plan required)
  have hplanned : u64Add (plan.hostBase required) (plan.auxLeft required) =
      plan.hostBase required + plan.auxLeft required := u64Add_of_le (by omega)
  unfold Plan.reserved
  rw [← hcontext, ← hplanned]
  exact (Except.ok.inj h).symm

theorem hostRows_ok {devices} (hworkspace : (hostTotals devices).workspace ≤ u64Max)
    (hkv : (hostTotals devices).kv ≤ u64Max) :
    devices.foldlM addHostRow {} = .ok (hostTotals devices) := by
  induction devices using reverseRecOn with
  | nil => rfl
  | append_singleton seen device ih =>
    by_cases hhost : device.id < 0
    · have hsplit : hostTotals (seen ++ [device]) =
          { workspace := (hostTotals seen).workspace + device.workspaceParts.sum
            graph := (hostTotals seen).graph + device.graphBytes
            kv := (hostTotals seen).kv + device.kvBytes } := by
        simp [hostTotals, filter_append, hhost]
      rw [hsplit] at hworkspace hkv ⊢
      dsimp only at hworkspace hkv
      have hgraph := graph_le_workspace seen
      have hpart : device.graphBytes ≤ device.workspaceParts.sum := by
        simp [DevicePlan.workspaceParts]
      rw [foldlM_append, ih (by omega) (by omega)]
      show ([device] : List DevicePlan).foldlM addHostRow (hostTotals seen) = _
      rw [foldlM_cons, addHostRow, if_pos hhost,
        (sumChecked_eq_some (by omega)).mpr ⟨rfl, hworkspace⟩,
        (addChecked_eq_some (by omega)).mpr ⟨rfl, by omega⟩,
        (addChecked_eq_some (by omega)).mpr ⟨rfl, hkv⟩]
      rfl
    · have hsame : hostTotals (seen ++ [device]) = hostTotals seen := by
        simp [hostTotals, filter_append, hhost]
      rw [hsame] at hworkspace hkv ⊢
      rw [foldlM_append, ih hworkspace hkv]
      show ([device] : List DevicePlan).foldlM addHostRow (hostTotals seen) = _
      rw [foldlM_cons, addHostRow, if_neg hhost]
      rfl

theorem Reservable.reserveHostContext {plan required} (h : Reservable plan required)
    (hcap : plan.ramCapacityBytes ≤ u64Max) (hplanned : plan.ramPlannedBytes ≤ u64Max) :
    reserveHostContext plan required = .ok (plan.reserved required) := by
  have hfits := h.fits
  have hbase : plan.hostBase required ≤ u64Max := by omega
  have houtside : plan.hostOutside required ≤ u64Max := by omega
  have haux := auxLeft_le plan required
  have hreservations := h.reservations
  have hparts : sumChecked (plan.weightsFloor required) [plan.fixedFloor required,
      max plan.qwen4expPleRamBytes required.pleCacheBytes, plan.expertRamBytes,
      plan.ioStagingBytes] = some (plan.hostBase required - plan.graphFloor required) := by
    unfold Plan.hostBase at hbase ⊢
    refine (sumChecked_eq_some (by omega)).mpr ⟨?_, by omega⟩
    simp only [sum_cons, sum_nil]
    omega
  have hgraph : plan.graphFloor required ≤ plan.hostBase required := by
    unfold Plan.hostBase
    omega
  have hmetadata : addChecked plan.hostGraphMetadataBytes plan.hostContextMetadataBytes =
      some (plan.hostGraphMetadataBytes + plan.hostContextMetadataBytes) := by
    simp only [Plan.reservations, sum_cons, sum_nil] at hreservations
    exact (addChecked_eq_some (by omega)).mpr ⟨rfl, by omega⟩
  have hrows : plan.devices.foldlM addHostRow {} = .ok (hostTotals plan.devices) := by
    unfold Plan.hostOutside at houtside
    exact hostRows_ok (by omega) (by omega)
  have hcombined : sumChecked (plan.hostBase required) [(hostTotals plan.devices).workspace,
      max (hostTotals plan.devices).kv required.kvBytes] =
        some (plan.hostBase required + plan.hostOutside required) := by
    refine (sumChecked_eq_some hbase).mpr ⟨?_, by omega⟩
    simp [Plan.hostOutside]
  have hworkspace : addChecked (plan.hostBase required - plan.graphFloor required)
      (plan.graphFloor required) = some (plan.hostBase required) :=
    (addChecked_eq_some (by omega)).mpr ⟨by omega, hbase⟩
  have hsum : sumChecked 0 plan.reservations = some plan.reservations.sum :=
    (sumChecked_eq_some (Nat.zero_le _)).mpr ⟨Nat.zero_add _, by omega⟩
  refine except_bind_eq_ok.mpr ⟨_, orError_eq_ok.mpr hsum, ?_⟩
  refine except_bind_eq_ok.mpr ⟨(), unlessError_eq_ok.mpr ⟨hreservations, h.capacity⟩, ?_⟩
  refine except_bind_eq_ok.mpr ⟨_, orError_eq_ok.mpr hmetadata, ?_⟩
  refine except_bind_eq_ok.mpr ⟨_, orError_eq_ok.mpr hparts, ?_⟩
  refine except_bind_eq_ok.mpr ⟨_, hrows, ?_⟩
  rw [measured_eq]
  refine except_bind_eq_ok.mpr ⟨_, orError_eq_ok.mpr hworkspace, ?_⟩
  refine except_bind_eq_ok.mpr ⟨_, orError_eq_ok.mpr hcombined, ?_⟩
  refine except_bind_eq_ok.mpr ⟨(), unlessError_eq_ok.mpr hfits, ?_⟩
  have hcontext : u64Sub (plan.fixedFloor required) plan.hostGraphMetadataBytes =
      plan.fixedFloor required - plan.hostGraphMetadataBytes :=
    u64Sub_of_le (graphMetadata_le plan required)
  have hplanned' : u64Add (plan.hostBase required) (plan.auxLeft required) =
      plan.hostBase required + plan.auxLeft required := u64Add_of_le (by omega)
  unfold Plan.reserved
  rw [← hcontext, ← hplanned']
  rfl

/-! ## Reserving again -/

section Again

variable {plan : Plan} {required : HostRequirements}

-- `rfl` would compare the two plans before their fields, and with them the products by `mib`.
theorem reserved_ramCapacityBytes (plan : Plan) (required : HostRequirements) :
    (plan.reserved required).ramCapacityBytes = plan.ramCapacityBytes := by
  rw [Plan.reserved]

theorem reserved_devices (plan : Plan) (required : HostRequirements) :
    (plan.reserved required).devices = plan.devices := by
  rw [Plan.reserved]

theorem hostOutside_reserved (plan : Plan) (required : HostRequirements) :
    (plan.reserved required).hostOutside required = plan.hostOutside required := by
  rw [Plan.hostOutside, reserved_devices, Plan.hostOutside]

theorem reservations_sum (plan : Plan) :
    plan.reservations.sum = plan.expertRamBytes + plan.auxRamBytes + plan.ioStagingBytes +
      plan.qwen4expPleRamBytes + plan.hostGraphMetadataBytes + plan.hostContextMetadataBytes +
      plan.hostGraphWorkspaceBytes := by
  simp only [Plan.reservations, sum_cons, sum_nil]
  omega

theorem hostWeights_reserved (plan : Plan) (required : HostRequirements) :
    (plan.reserved required).hostWeights = plan.weightsFloor required := by
  have := graphMetadata_le plan required
  rw [Plan.hostWeights, reservations_sum, Plan.reserved]
  simp only [Plan.hostBase]
  omega

theorem weightsFloor_reserved (plan : Plan) (required : HostRequirements) :
    (plan.reserved required).weightsFloor required = plan.weightsFloor required := by
  rw [Plan.weightsFloor, hostWeights_reserved]
  unfold Plan.weightsFloor
  omega

theorem fixedFloor_reserved (plan : Plan) (required : HostRequirements) :
    (plan.reserved required).fixedFloor required = plan.fixedFloor required := by
  have hle := graphMetadata_le plan required
  have hfloor : required.fixedBytes ≤ plan.fixedFloor required := Nat.le_max_right _ _
  rw [Plan.fixedFloor, Plan.reserved]
  dsimp only
  omega

theorem graphFloor_reserved (plan : Plan) (required : HostRequirements) :
    (plan.reserved required).graphFloor required = plan.graphFloor required := by
  rw [Plan.graphFloor, Plan.reserved]
  dsimp only
  unfold Plan.graphFloor
  omega

theorem hostBase_reserved (plan : Plan) (required : HostRequirements) :
    (plan.reserved required).hostBase required = plan.hostBase required := by
  unfold Plan.hostBase
  rw [weightsFloor_reserved, fixedFloor_reserved, graphFloor_reserved, Plan.reserved]
  simp

theorem auxLeft_reserved (plan : Plan) (required : HostRequirements) :
    (plan.reserved required).auxLeft required = plan.auxLeft required := by
  have hle := auxLeft_le plan required
  rw [Plan.auxLeft, hostBase_reserved, hostOutside_reserved, Plan.reserved]
  dsimp only
  rw [Nat.min_eq_left hle]
  exact Nat.div_mul_cancel (Nat.dvd_mul_left _ _)

theorem reserved_reserved (plan : Plan) (required : HostRequirements) :
    (plan.reserved required).reserved required = plan.reserved required := by
  have hple : max (plan.reserved required).qwen4expPleRamBytes required.pleCacheBytes =
      (plan.reserved required).qwen4expPleRamBytes := Nat.max_eq_left (Nat.le_max_right _ _)
  rw [Plan.reserved, fixedFloor_reserved, graphFloor_reserved, hostBase_reserved, auxLeft_reserved,
    hple, Plan.reserved]

theorem Reservable.again (h : Reservable plan required) :
    Reservable (plan.reserved required) required := by
  refine ⟨?_, (reserved_ramCapacityBytes plan required).symm ▸ h.capacity, ?_⟩
  · have hweights := hostWeights_reserved plan required
    have := graphMetadata_le plan required
    rw [reservations_sum, Plan.reserved]
    simp only [Plan.hostBase]
    omega
  · rw [hostBase_reserved, hostOutside_reserved, reserved_ramCapacityBytes]
    exact h.fits

end Again

/-- **Reserving the host context.** A failing call leaves the plan as it was. One that succeeds
raises every floor but that of the KV to its requirement, charges the KV, plans the sum of the parts
within the capacity, and changes nothing when repeated. -/
theorem reserved_host_contexts_are_stable (plan : Plan) (required : HostRequirements)
    (hcap : plan.ramCapacityBytes ≤ u64Max) {ok : Bool} {out : Plan} {error : String}
    (h : planReserveHostContext plan required = (ok, out, error)) :
    (ok = false → out = plan) ∧
    (ok = true →
      (required.weightsBytes ≤ out.ramPlannedBytes - out.reservations.sum ∧
        required.fixedBytes ≤ out.hostGraphMetadataBytes + out.hostContextMetadataBytes ∧
        required.pleCacheBytes ≤ out.qwen4expPleRamBytes ∧
        required.graphBytes ≤ (hostTotals out.devices).graph + out.hostGraphWorkspaceBytes) ∧
      mib ∣ out.auxRamBytes ∧
      out.ramPlannedBytes = max required.weightsBytes
        (plan.ramPlannedBytes - plan.reservations.sum) + out.reservations.sum ∧
      out.ramPlannedBytes + (hostTotals out.devices).workspace +
        max (hostTotals out.devices).kv required.kvBytes ≤ out.ramCapacityBytes ∧
      planReserveHostContext out required = (true, out, "")) := by
  unfold planReserveHostContext at h
  cases hres : reserveHostContext plan required with
  | error message =>
    rw [hres] at h
    cases h
    exact ⟨fun _ => rfl, fun htrue => Bool.noConfusion htrue⟩
  | ok reserved =>
    rw [hres] at h
    cases h
    obtain ⟨hreservable, rfl⟩ := reserveHostContext_eq_ok hcap hres
    refine ⟨fun hfalse => Bool.noConfusion hfalse, fun _ => ?_⟩
    have hagain := hreservable.again
    have haux := auxLeft_le plan required
    have hfits := hreservable.fits
    have hplanned : (plan.reserved required).ramPlannedBytes +
        plan.hostOutside required ≤ plan.ramCapacityBytes := by
      show plan.hostBase required + plan.auxLeft required + _ ≤ _
      omega
    have hstable : reserveHostContext (plan.reserved required) required =
        .ok (plan.reserved required) := by
      rw [hagain.reserveHostContext (by rwa [reserved_ramCapacityBytes]) (by omega),
        reserved_reserved]
    rw [reserved_devices, reserved_ramCapacityBytes]
    refine ⟨⟨?_, ?_, ?_, ?_⟩, ?_, ?_, ?_, ?_⟩
    · rw [← Plan.hostWeights, hostWeights_reserved]
      exact Nat.le_max_left _ _
    · have hmetadata := graphMetadata_le plan required
      have hfloor : required.fixedBytes ≤ plan.fixedFloor required := Nat.le_max_right _ _
      rw [Plan.reserved]
      dsimp only
      omega
    · exact Nat.le_max_right _ _
    · have : required.graphBytes - (hostTotals plan.devices).graph ≤ plan.graphFloor required :=
        Nat.le_max_right _ _
      show _ ≤ (hostTotals plan.devices).graph + plan.graphFloor required
      omega
    · exact Nat.dvd_mul_left _ _
    · -- what a reservation leaves for the weights is the floor it raised them to
      rw [← Plan.hostWeights, ← Plan.weightsFloor, ← hostWeights_reserved]
      exact (Nat.sub_add_cancel hagain.reservations).symm
    · rw [Nat.add_assoc]
      exact hplanned
    · rw [planReserveHostContext, hstable]

def tightHost : Plan :=
  { ramCapacityBytes := 9 * mib
    ramPlannedBytes := 7 * mib
    auxRamBytes := 3 * mib
    expertRamBytes := mib
    devices := [{ id := -1, graphBytes := 100, kvBytes := mib }] }

def tightContext : HostRequirements :=
  { weightsBytes := 4 * mib + 5, fixedBytes := 20, graphBytes := 150, kvBytes := 10 }

theorem tight_reservation_is_stable :
    ∃ out, planReserveHostContext tightHost tightContext = (true, out, "") ∧
      out.auxRamBytes = 2 * mib ∧
      planReserveHostContext out tightContext = (true, out, "") := by
  refine ⟨_, rfl, by decide +kernel, ?_⟩
  exact ((reserved_host_contexts_are_stable tightHost tightContext (by decide +kernel) rfl).2
    rfl).2.2.2.2

/-- A plan without a host row has no place for the measured KV, and stays as it is. -/
theorem measured_kv_is_not_recorded :
    planReserveHostContext { ramCapacityBytes := 9 * mib, ramPlannedBytes := mib }
        { kvBytes := 3 * mib } =
      (true, { ramCapacityBytes := 9 * mib, ramPlannedBytes := mib }, "") ∧
      (hostTotals []).kv < 3 * mib :=
  ⟨rfl, by decide +kernel⟩

end ExpertStreaming.Planner
