import ExpertStreaming.Planner.Native
import ExpertStreaming.Planner.HostContext

/-! # Plans in force

A server starts with a solved plan, reserves what its context measures on the host, and from
then on replaces the plan by accepted rebalance targets. Whatever the order of these calls and
whether they succeed, the plan in force stays within the memory that was probed at the start
and holds the KV bytes of its context.
-/
namespace ExpertStreaming.Planner

open Lib List

/-- The plans that a run of the three calls can leave in force. -/
inductive InForce (input : PlanInput) : Plan → Prop
  | solved {fuel plan} (solved : solve fuel input = some (.ok plan)) : InForce input plan
  | reserved {plan required ok out error} (before : InForce input plan)
      (called : planReserveHostContext plan required = (ok, out, error)) : InForce input out
  | rebalanced {plan target} (before : InForce input plan) (called : Rebalances plan target) :
      InForce input target

def DevicePlan.memory (row : DevicePlan) : Int × Nat × Nat :=
  (row.id, row.capacityBytes, row.reserveBytes)

/-- **A plan fits the machine it was solved for.** -/
structure FitsMachine (input : PlanInput) (plan : Plan) : Prop where
  devices : plan.devices.map DevicePlan.memory =
    input.devices.map fun device => (device.id, device.freeBytes, device.reserveBytes)
  accounted : plan.Accounted
  budget : plan.ramCapacityBytes = input.maxRamBytes
  kv : ∃ query, input.kvBytesForContext = some query ∧
    query plan.kvQuality plan.context ≤ plan.kvTotal

/-- What the calls rely on besides. -/
structure InForceInv (input : PlanInput) (plan : Plan) : Prop extends FitsMachine input plan where
  inRange : plan.InRange
  native : plan.kvNativeSizing = true
  query : ∀ query, input.kvBytesForContext = some query →
    plan.kvBytesForContext = some (query plan.kvQuality)
  hosts : plan.hostRows.length ≤ 1

variable {input : PlanInput} {plan target : Plan} {required : HostRequirements}

theorem InForceInv.of_solved {params probe fuel} (hrange : NativeInRange params probe)
    (hinput : nativeInput params probe = .ok input) (h : solve fuel input = some (.ok plan)) :
    InForceInv input plan := by
  have hsettled := settled_of_native hrange hinput h
  have hnative := nativeInput_spec hinput
  have hin := hnative.inRange hrange
  obtain ⟨bounds, base, found, hprepared, hbounds, hchosen, hfinished, -⟩ := solve_spec hin h
  have hsound := solve_sound hin hnative.hostRowsMatch (hnative.searchEnds hrange) h
  have hallocated := hchosen.allocated
  have hbudget : plan.ramCapacityBytes = input.maxRamBytes :=
    ((congrArg Plan.ramCapacityBytes hfinished.frame).trans
      ((congrArg Plan.ramCapacityBytes hallocated.frame).trans rfl)).trans hprepared.capacity
  have hram : found.ramPlannedBytes = base.ramPlannedBytes := by rw [hallocated.frame]
  obtain ⟨query, -, hquery⟩ := hnative.query
  have hquality : plan.kvQuality = found.kvQuality := by rw [hfinished.frame]
  have hasked : plan.kvBytesForContext = some (query plan.kvQuality) := by
    rw [hquality]
    exact ((congrArg Plan.kvBytesForContext hfinished.frame).trans rfl).trans
      (hallocated.query query hquery)
  obtain ⟨asked, hfound, hsize⟩ := hsettled.query
  obtain rfl := Option.some.inj (hasked.symm.trans hfound)
  refine {
    devices := hsound.devices
    accounted := ⟨hsound.planned, hsound.fits, fun hne => ?_⟩
    budget := hbudget
    kv := ⟨query, hquery, hsize.le⟩
    inRange := ⟨?_, ?_, fun asked hasked' context => ?_⟩
    native := hsettled.native
    query := fun query' hquery' => Option.some.inj (hquery.symm.trans hquery') ▸ hasked
    hosts := ?_ }
  · rw [hbudget] at hne ⊢
    exact hsound.host hne
  · have hceiling := hsound.ceiling
    have hrequested := hin.requested
    have hlimit := hin.limit
    unfold PlanInput.ceiling at hceiling
    split_ifs at hceiling <;> omega
  · have := hfinished.le
    have := hprepared.le
    omega
  · obtain rfl := Option.some.inj (hasked.symm.trans hasked')
    exact hin.kv query hquery _ context
  · rcases hsettled.host with hnone | ⟨row, hrow, -⟩
    · have hempty : plan.hostRows = [] :=
        filter_eq_nil_iff.mpr fun row hrow => by simpa using hnone row hrow
      simp [hempty]
    · rw [Plan.hostRows, hrow]
      exact length_filter_le _ _

theorem InForceInv.rebalance (h : InForceInv input plan) (hcall : Rebalances plan target) :
    InForceInv input target := by
  obtain ⟨request, hrequest, haccepted⟩ := hcall
  have hto := rebalanceTarget_spec h.inRange hrequest haccepted
  obtain ⟨ratio, -, hrows⟩ := hto.rows
  obtain ⟨query, hquery, -⟩ := h.kv
  have hquality : target.kvQuality = plan.kvQuality :=
    (congrArg Plan.kvQuality hto.frame).trans rfl
  have hmemory : plan.devices.map DevicePlan.memory = target.devices.map DevicePlan.memory :=
    map_eq_map_of_forall₂ (fun _ _ hrow => by
      simp only [DevicePlan.memory, hrow.id_eq, hrow.capacity, hrow.reserve]) hrows
  exact {
    devices := hmemory.symm.trans h.devices
    accounted := hto.accounted h.accounted h.hosts
    budget := hto.sameBasis.capacity.trans h.budget
    kv := ⟨query, hquery, hquality ▸ hto.native_le h.native (h.query query hquery)⟩
    inRange := hto.inRange h.inRange hrequest
    native := hto.sameBasis.native.trans h.native
    query := fun query hquery => hquality ▸ hto.sameBasis.query.trans (h.query query hquery)
    hosts := hto.hostRows_length ▸ h.hosts }

/-- The host rows of an accounted plan hold, beyond the weights, their workspace and their KV. -/
theorem hostNonWeight_eq_totals (h : plan.Accounted) : plan.hostNonWeight =
    (hostTotals plan.devices).workspace + (hostTotals plan.devices).kv := by
  unfold Plan.hostNonWeight Plan.hostRows hostTotals
  rw [← sum_map_add]
  refine congrArg sum (map_congr_left fun row hrow => ?_)
  have hplanned := h.planned row (mem_filter.mp hrow).1
  simp only [DevicePlan.workspaceParts, sum_cons, sum_nil]
  omega

theorem hostRows_reserved (plan : Plan) (required : HostRequirements) :
    (plan.reserved required).hostRows = plan.hostRows := by
  rw [Plan.hostRows, reserved_devices, Plan.hostRows]

theorem kvTotal_reserved (plan : Plan) (required : HostRequirements) :
    (plan.reserved required).kvTotal = plan.kvTotal := by
  rw [Plan.kvTotal, reserved_devices, Plan.kvTotal]

theorem ramPlanned_reserved (plan : Plan) (required : HostRequirements) :
    (plan.reserved required).ramPlannedBytes =
      plan.hostBase required + plan.auxLeft required := by
  rw [Plan.reserved]

theorem Reservable.ramPlanned_le (h : Reservable plan required) :
    (plan.reserved required).ramPlannedBytes + plan.hostOutside required ≤
      plan.ramCapacityBytes := by
  have haux := auxLeft_le plan required
  have hfits := h.fits
  rw [ramPlanned_reserved]
  generalize plan.auxLeft required = aux at haux ⊢
  omega

theorem Accounted.reserved (h : plan.Accounted) (hreservable : Reservable plan required) :
    (plan.reserved required).Accounted := by
  have hplanned := hreservable.ramPlanned_le
  have houtside : (hostTotals plan.devices).workspace + (hostTotals plan.devices).kv ≤
      plan.hostOutside required := Nat.add_le_add_left (Nat.le_max_left _ _) _
  refine ⟨?_, ?_, fun _ => ?_⟩
  · rw [reserved_devices]
    exact h.planned
  · rw [reserved_devices]
    exact h.fits
  · rw [Plan.hostNonWeight, hostRows_reserved, ← Plan.hostNonWeight, hostNonWeight_eq_totals h,
      reserved_ramCapacityBytes]
    generalize (plan.reserved required).ramPlannedBytes = planned at hplanned ⊢
    omega

theorem InForceInv.reserve {ok out error} (hmax : input.maxRamBytes ≤ u64Max)
    (h : InForceInv input plan)
    (hcall : planReserveHostContext plan required = (ok, out, error)) : InForceInv input out := by
  unfold planReserveHostContext at hcall
  cases hres : reserveHostContext plan required with
  | error message =>
    rw [hres] at hcall
    cases hcall
    exact h
  | ok reserved =>
    rw [hres] at hcall
    cases hcall
    have hcap : plan.ramCapacityBytes ≤ u64Max := h.budget ▸ hmax
    obtain ⟨hreservable, rfl⟩ := reserveHostContext_eq_ok hcap hres
    have hram : (plan.reserved required).ramPlannedBytes ≤ u64Max :=
      (Nat.le_of_add_right_le hreservable.ramPlanned_le).trans hcap
    -- comparing the two plans as terms would unfold the products by `mib`
    have hcontext : (plan.reserved required).context = plan.context := by rw [Plan.reserved]
    have hquality : (plan.reserved required).kvQuality = plan.kvQuality := by rw [Plan.reserved]
    have hnative : (plan.reserved required).kvNativeSizing = plan.kvNativeSizing := by
      rw [Plan.reserved]
    have hbytes : (plan.reserved required).kvBytesForContext = plan.kvBytesForContext := by
      rw [Plan.reserved]
    refine ⟨⟨?_, Accounted.reserved h.accounted hreservable, ?_, ?_⟩, ⟨?_, hram, ?_⟩, ?_, ?_, ?_⟩
    · rw [reserved_devices]
      exact h.devices
    · rw [reserved_ramCapacityBytes]
      exact h.budget
    · rw [hquality, hcontext, kvTotal_reserved]
      exact h.kv
    · rw [hcontext]
      exact h.inRange.context
    · rw [hbytes]
      exact h.inRange.kv
    · rw [hnative]
      exact h.native
    · rw [hbytes, hquality]
      exact h.query
    · rw [hostRows_reserved]
      exact h.hosts

/-- **Every plan in force fits the machine it was solved for.** Through all host reservations and
rebalances, whether they succeed or fail, each device holds its reserve and all parts planned for
it within the memory that was probed, the host stays within the RAM budget, and the KV bytes are
at least what the model asks for at this quality and context. -/
theorem plans_in_force_fit {params : NativeParams} {probe : ModelProbe}
    (hrange : NativeInRange params probe) (hinput : nativeInput params probe = .ok input)
    (h : InForce input plan) : FitsMachine input plan := by
  have hmax := ((nativeInput_spec hinput).inRange hrange).maxRam
  have hinv : InForceInv input plan := by
    induction h with
    | solved solved => exact .of_solved hrange hinput solved
    | reserved _ called ih => exact ih.reserve hmax called
    | rebalanced _ called ih => exact ih.rebalance called
  exact hinv.toFitsMachine

def budgetParams : NativeParams := { smallParams 2 with maxRamBytes := 2 ^ 34 }

theorem budgetParams_inRange : NativeInRange budgetParams smallProbe :=
  { smallParams_inRange 2 with maxRam := by decide }

/-- Under a RAM budget the small plan is replaced by a target of twice the context, which then
reserves a measured host context. -/
theorem smallPlan_stays_in_force :
    ∃ input plan target out, nativeInput budgetParams smallProbe = .ok input ∧
      solve 20 input = some (.ok plan) ∧ plan.context = 4096 ∧
      rebalanceTarget plan { context := 8192 } = .ok target ∧
      planReserveHostContext target { weightsBytes := 5, fixedBytes := 7 } = (true, out, "") ∧
      FitsMachine input out := by
  have hsolved : (smallPlan budgetParams).any (fun plan => decide (plan.context = 4096) &&
      (rebalanceTarget plan { context := 8192 }).toOption.any fun target =>
        (reserveHostContext target { weightsBytes := 5, fixedBytes := 7 }).toOption.isSome) =
        true := by decide +kernel
  obtain ⟨plan, hplan, hok⟩ := (Option.any_eq_true _ _).mp hsolved
  rw [Bool.and_eq_true, decide_eq_true_eq] at hok
  obtain ⟨input, hinput, hsolve⟩ := smallPlan_eq_some hplan
  obtain ⟨target, htarget, hreserves⟩ := exists_ok_of_any hok.2
  obtain ⟨out, hout⟩ : ∃ out, reserveHostContext target { weightsBytes := 5, fixedBytes := 7 } =
      .ok out := by
    cases hreserve : reserveHostContext target { weightsBytes := 5, fixedBytes := 7 } with
    | ok out => exact ⟨out, rfl⟩
    | error message => rw [hreserve] at hreserves; cases hreserves
  have hcall : planReserveHostContext target { weightsBytes := 5, fixedBytes := 7 } =
      (true, out, "") := by
    rw [planReserveHostContext, hout]
  have hforce := (InForce.solved hsolve).rebalanced ⟨{ context := 8192 }, by decide, htarget⟩
  exact ⟨input, plan, target, out, hinput, hsolve, hok.1, htarget, hcall,
    plans_in_force_fit budgetParams_inRange hinput (hforce.reserved hcall)⟩

end ExpertStreaming.Planner
