import ExpertStreaming.Planner.Search

/-! # The rest of a plan

The device rows keep their accounting when they take their transient bytes and their
expert cache, and the RAM fields are exact sums through every reduction. `Finished`
collects what `finish` makes of a placement.
-/
namespace ExpertStreaming.Planner

open Lib

structure FinishedRow (plan : Plan) (source : DeviceInput) (row : DevicePlan) : Prop where
  id_eq : row.id = source.id
  capacity : row.capacityBytes = source.freeBytes
  reserve : row.reserveBytes = source.reserveBytes
  dense : row.denseBytes = source.denseBytes
  graph : row.graphBytes = source.graphBytes
  transient : row.transientBytes =
    if row.id = plan.transientDevice then plan.transientCapacityBytes else 0
  planned : row.plannedBytes = row.parts.sum
  headroom : row.reserveBytes + row.plannedBytes + row.headroomBytes = row.capacityBytes
  swap : plan.transientPolicy = .shared → row.id = plan.transientDevice →
    min plan.transientMtpBytes plan.transientMultimodalBytes ≤ row.headroomBytes

/-- The transient fields that a choice of the policy leaves in a plan. -/
structure TransientChosen (input : PlanInput) (plan : Plan) : Prop where
  mtp : plan.transientMtpBytes = input.mtpBytes
  multimodal : plan.transientMultimodalBytes = input.multimodalBytes
  capacity : plan.transientCapacityBytes ≤ input.mtpBytes + input.multimodalBytes
  shared : plan.transientPolicy = .shared →
    plan.transientCapacityBytes = max input.mtpBytes input.multimodalBytes

variable {input : PlanInput} {plan : Plan}

theorem chooseTransient_spec {headroom choice} (h : chooseTransient input headroom = .ok choice) :
    choice.2 ≤ input.mtpBytes + input.multimodalBytes ∧
      (choice.1 = .shared → choice.2 = max input.mtpBytes input.multimodalBytes ∧
        input.mtpBytes ≠ 0) := by
  unfold chooseTransient at h
  split at h
  next hboth =>
    split at h
    · cases h
    · cases h
      exact ⟨by dsimp only; omega, fun _ => ⟨rfl, hboth.1⟩⟩
  next =>
  split at h
  · split at h
    · cases h
    · cases h
      exact ⟨Nat.le_add_right _ _, fun hshared => nomatch hshared⟩
  · split at h
    · split at h
      · cases h
      · cases h
        exact ⟨Nat.le_add_left _ _, fun hshared => nomatch hshared⟩
    · cases h
      exact ⟨Nat.zero_le _, fun hshared => nomatch hshared⟩

theorem transientReserve_le {id reserve} (hchosen : TransientChosen input plan)
    (hhost : plan.transientDevice = input.transientHost)
    (hmtp : input.mtpBytes + input.multimodalBytes ≤ u64Max)
    (h : (if id = plan.transientDevice ∧ plan.transientPolicy = .shared then
      addChecked (if id = plan.transientDevice then plan.transientCapacityBytes else 0)
        (min input.mtpBytes input.multimodalBytes)
      else some (if id = plan.transientDevice then plan.transientCapacityBytes else 0)) =
        some reserve) :
    reserve ≤ input.swapBytes id ∧
      (if id = plan.transientDevice then plan.transientCapacityBytes else 0) +
        (if id = plan.transientDevice ∧ plan.transientPolicy = .shared then
          min input.mtpBytes input.multimodalBytes else 0) = reserve := by
  have hcapacity := hchosen.capacity
  by_cases hid : id = plan.transientDevice
  · have hswap : input.swapBytes id = input.mtpBytes + input.multimodalBytes :=
      if_pos (hid.trans hhost)
    by_cases hshared : plan.transientPolicy = .shared
    · have hmax := hchosen.shared hshared
      simp only [hid, hshared, and_self, if_true] at h ⊢
      obtain ⟨rfl, -⟩ := (addChecked_eq_some (by omega)).mp h
      rw [← hid]
      omega
    · simp only [hid, hshared, and_false, if_true, if_false, Option.some.injEq] at h ⊢
      rw [← hid]
      omega
  · simp only [hid, false_and, if_false, Option.some.injEq] at h ⊢
    omega

theorem finishRow_spec {enabled source row out} (hchosen : TransientChosen input plan)
    (hhost : plan.transientDevice = input.transientHost)
    (hmtp : input.mtpBytes + input.multimodalBytes ≤ u64Max) (hfree : source.freeBytes ≤ u64Max)
    (hrow : Placed input enabled source row) (h : finishRow input plan row = some out) :
    FinishedRow plan source out ∧ out.kvBytes = row.kvBytes := by
  simp only [finishRow, Option.map_eq_some_iff] at h
  obtain ⟨reserve, hreserve, rfl⟩ := h
  obtain ⟨hswap, hsplit⟩ := transientReserve_le hchosen hhost hmtp hreserve
  have hplaced := hrow.planned
  have hroom := hrow.headroom
  have hcap := hrow.capacity
  have hkept := hrow.swap
  have hexp := hrow.expert
  have htran := hrow.transient
  simp only [DevicePlan.parts, List.sum_cons, List.sum_nil] at hplaced
  generalize htransient : (if row.id = plan.transientDevice then plan.transientCapacityBytes
    else 0) = transient at hsplit ⊢
  generalize hexpert : (if plan.policy = .resident then 0 else
    min input.requestedExpertVramBytesPerDevice
      (row.headroomBytes - min row.headroomBytes reserve)) = expert
  have hexpertLe : expert + reserve ≤ row.headroomBytes := by
    rw [← hexpert]
    split
    · omega
    · omega
  have hadd : u64Add row.plannedBytes (u64Add transient expert) =
      row.plannedBytes + (transient + expert) := by
    have hinner : u64Add transient expert = transient + expert := u64Add_of_le (by omega)
    rw [hinner, u64Add_of_le (by omega)]
  have hsub : u64Sub (u64Sub row.capacityBytes row.reserveBytes)
      (row.plannedBytes + (transient + expert)) =
      row.capacityBytes - row.reserveBytes - (row.plannedBytes + (transient + expert)) := by
    have hinner : u64Sub row.capacityBytes row.reserveBytes =
        row.capacityBytes - row.reserveBytes := u64Sub_of_le (by omega)
    rw [hinner, u64Sub_of_le (by omega)]
  refine ⟨⟨hrow.id_eq, hrow.capacity, hrow.reserve, hrow.dense, hrow.graph, htransient.symm,
    ?_, ?_, ?_⟩, rfl⟩
  · simp only [DevicePlan.parts, List.sum_cons, List.sum_nil, hadd]
    omega
  · simp only [hadd, hsub]
    omega
  · intro hshared hid
    simp only [hadd, hsub, hchosen.mtp, hchosen.multimodal]
    dsimp only at hid
    rw [if_pos ⟨hid, hshared⟩] at hsplit
    omega

/-- What the RAM fields of a plan are: the fixed bytes and the two caches. -/
def RamSum (input : PlanInput) (plan : Plan) : Prop :=
  plan.ramPlannedBytes = input.denseRamBytes + plan.hostGraphMetadataBytes + plan.ioStagingBytes +
    plan.qwen4expPleRamBytes + plan.expertRamBytes + plan.auxRamBytes

/-- What the reconciliation of the host row does to a plan. -/
structure Reconciled (input : PlanInput) (plan out : Plan) : Prop where
  frame : out = { plan with
    expertRamBytes := out.expertRamBytes
    auxRamBytes := out.auxRamBytes
    ramPlannedBytes := out.ramPlannedBytes }
  ram : RamSum input out
  le : out.ramPlannedBytes ≤ plan.ramPlannedBytes
  budget : input.maxRamBytes ≠ 0 → ∀ host ∈ plan.devices.find? (·.id < 0),
    out.ramPlannedBytes + (host.plannedBytes - min host.plannedBytes input.denseRamBytes) ≤
      input.maxRamBytes

theorem reconcileHost_spec {out} (hram : RamSum input plan) (hmax : plan.ramPlannedBytes ≤ u64Max)
    (h : reconcileHost input plan = .ok out) :
    Reconciled input plan out := by
  unfold RamSum at hram
  unfold reconcileHost at h
  split at h
  next hnone =>
    cases h
    exact ⟨rfl, hram, Nat.le_refl _, fun _ host hhost => by simp [hnone] at hhost⟩
  next host hhost =>
  split at h
  next hzero =>
    cases h
    exact ⟨rfl, hram, Nat.le_refl _, fun hne => absurd hzero hne⟩
  next hne =>
  split at h
  · cases h
  next combined hcombined =>
  obtain ⟨rfl, -⟩ := (addChecked_eq_some hmax).mp hcombined
  generalize hweight : host.plannedBytes - min host.plannedBytes input.denseRamBytes = extra
    at h
  generalize hexcess : (if input.maxRamBytes < plan.ramPlannedBytes + extra then
    plan.ramPlannedBytes + extra - input.maxRamBytes else 0) = excess at h
  have hlower : plan.ramPlannedBytes + extra ≤ input.maxRamBytes + excess := by
    rw [← hexcess]
    split
    · omega
    · omega
  have haux : u64Sub plan.ramPlannedBytes (min excess plan.auxRamBytes) =
      plan.ramPlannedBytes - min excess plan.auxRamBytes := u64Sub_of_le (by omega)
  simp only [haux] at h
  have hbudget : ∀ {r : Nat}, r + extra ≤ input.maxRamBytes → input.maxRamBytes ≠ 0 →
      ∀ row ∈ plan.devices.find? (·.id < 0), r + (row.plannedBytes -
        min row.plannedBytes input.denseRamBytes) ≤ input.maxRamBytes := by
    intro r hr _ row hrow
    obtain rfl : host = row := Option.some.inj (hhost.symm.trans (Option.mem_def.mp hrow))
    omega
  split at h
  next hmore =>
    have hexpert : u64Sub (plan.ramPlannedBytes - min excess plan.auxRamBytes)
        (min (excess - min excess plan.auxRamBytes) plan.expertRamBytes) =
        plan.ramPlannedBytes - min excess plan.auxRamBytes -
          min (excess - min excess plan.auxRamBytes) plan.expertRamBytes :=
      u64Sub_of_le (by omega)
    split at h
    · cases h
    next hdone =>
    simp only [hexpert] at h
    cases h
    have hremove : u64Sub (plan.ramPlannedBytes - min excess plan.auxRamBytes -
        min (excess - min excess plan.auxRamBytes) plan.expertRamBytes)
        (plan.expertRamBytes - min (excess - min excess plan.auxRamBytes)
          plan.expertRamBytes) =
        plan.ramPlannedBytes - min excess plan.auxRamBytes -
        min (excess - min excess plan.auxRamBytes) plan.expertRamBytes -
        (plan.expertRamBytes - min (excess - min excess plan.auxRamBytes)
          plan.expertRamBytes) := u64Sub_of_le (by omega)
    rw [hremove]
    split
    · exact ⟨rfl, by unfold RamSum; dsimp only; omega, by dsimp only; omega,
        hbudget (by dsimp only; omega)⟩
    · exact ⟨rfl, by unfold RamSum; dsimp only; omega, by dsimp only; omega,
        hbudget (by dsimp only; omega)⟩
  next hless =>
  split at h
  · cases h
  next hdone =>
  cases h
  exact ⟨rfl, by unfold RamSum; dsimp only; omega, by dsimp only; omega,
    hbudget (by dsimp only; omega)⟩

end ExpertStreaming.Planner
