import ExpertStreaming.Planner.Solve
import ExpertStreaming.Lib.Shares
import ExpertStreaming.Lib.Fallible

/-! # Placing the KV bytes of one context

What `allocateContext` accepts is placed: every row is within its device together
with the reserve and both transient modules, and the shares add up to the KV bytes.
-/
namespace ExpertStreaming.Planner

open Lib List

def PlanInput.swapBytes (input : PlanInput) (id : Int) : Nat :=
  if id = input.transientHost then input.mtpBytes + input.multimodalBytes else 0

/-- A row that holds its share of the KV bytes on the device it was made from. -/
structure Placed (input : PlanInput) (enabled : Bool) (source : DeviceInput) (row : DevicePlan) :
    Prop where
  id_eq : row.id = source.id
  capacity : row.capacityBytes = source.freeBytes
  reserve : row.reserveBytes = source.reserveBytes
  dense : row.denseBytes = source.denseBytes
  graph : row.graphBytes = source.graphBytes
  staging : row.expertPrefillStagingBytes = input.prefillStaging enabled source.id
  expert : row.expertCacheBytes = 0
  transient : row.transientBytes = 0
  planned : row.plannedBytes = row.parts.sum
  headroom : row.reserveBytes + row.plannedBytes + row.headroomBytes = row.capacityBytes
  swap : input.swapBytes row.id ≤ row.headroomBytes

variable {input : PlanInput} {enabled : Bool}

theorem usableBytes_spec {peak usable device} (hreserve : device.reserveBytes ≤ u64Max)
    (hpeak : peak = input.mtpBytes + input.multimodalBytes)
    (h : usableBytes input enabled peak device = some usable) :
    device.reserveBytes + device.denseBytes + device.graphBytes +
      input.prefillStaging enabled device.id + input.swapBytes device.id + usable =
        device.freeBytes := by
  simp only [usableBytes, Option.bind_eq_some_iff] at h
  obtain ⟨fixed, hfixed, total, htotal, h⟩ := h
  obtain ⟨rfl, hle⟩ := (sumChecked_eq_some hreserve).mp hfixed
  simp only [sum_cons, sum_nil, Nat.add_zero] at htotal hle
  have hswap : total = device.reserveBytes + (device.denseBytes + (device.graphBytes +
      input.prefillStaging enabled device.id)) + input.swapBytes device.id := by
    split at htotal
    next hhost =>
      obtain ⟨rfl, -⟩ := (addChecked_eq_some hle).mp htotal
      rw [PlanInput.swapBytes, if_pos hhost, hpeak]
    next hhost =>
    rw [PlanInput.swapBytes, if_neg hhost]
    simp only [Option.some.injEq] at htotal
    omega
  split at h
  · cases h
  · simp only [Option.some.injEq] at h
    omega

theorem placed_placeRow {source usable share} (hfree : source.freeBytes ≤ u64Max)
    (husable : source.reserveBytes + source.denseBytes + source.graphBytes +
      input.prefillStaging enabled source.id + input.swapBytes source.id + usable =
        source.freeBytes) (hshare : share ≤ usable) :
    Placed input enabled source
      (placeRow source (input.prefillStaging enabled source.id) share) := by
  have hplanned : u64Add (u64Add (u64Add source.denseBytes source.graphBytes)
      (input.prefillStaging enabled source.id)) share = source.denseBytes + source.graphBytes +
      input.prefillStaging enabled source.id + share := by
    have hfixed : u64Add source.denseBytes source.graphBytes =
        source.denseBytes + source.graphBytes := u64Add_of_le (by omega)
    have hstaged : u64Add (source.denseBytes + source.graphBytes)
        (input.prefillStaging enabled source.id) = source.denseBytes + source.graphBytes +
          input.prefillStaging enabled source.id := u64Add_of_le (by omega)
    rw [hfixed, hstaged, u64Add_of_le (by omega)]
  have hheadroom : u64Sub (u64Sub source.freeBytes source.reserveBytes)
      (source.denseBytes + source.graphBytes + input.prefillStaging enabled source.id + share) =
      source.freeBytes - source.reserveBytes - (source.denseBytes + source.graphBytes +
        input.prefillStaging enabled source.id + share) := by
    have hreserve : u64Sub source.freeBytes source.reserveBytes =
        source.freeBytes - source.reserveBytes := u64Sub_of_le (by omega)
    rw [hreserve, u64Sub_of_le (by omega)]
  refine ⟨rfl, rfl, rfl, rfl, rfl, rfl, rfl, rfl, ?_, ?_, ?_⟩
  · simp only [placeRow, DevicePlan.parts, sum_cons, sum_nil, hplanned]
    omega
  · simp only [placeRow, hplanned, hheadroom]
    omega
  · simp only [placeRow, hplanned, hheadroom]
    omega

theorem placeShares_spec {kvTotal weightSum assigned pairs rows} (hkv : kvTotal ≤ u64Max)
    (hweights : ∀ pair ∈ pairs, pair.2 ≤ weightSum) (hne : pairs ≠ [])
    (hfits : assigned + (pairs.map fun pair => kvTotal * pair.2 / weightSum).sum ≤ kvTotal)
    (h : placeShares input enabled kvTotal weightSum assigned pairs = some rows) :
    List.Forall₂ (fun pair row => row = placeRow pair.1 (input.prefillStaging enabled pair.1.id)
        row.kvBytes ∧ row.kvBytes ≤ pair.2) pairs rows ∧
      assigned + (rows.map (·.kvBytes)).sum = kvTotal := by
  induction pairs generalizing assigned rows with
  | nil => exact absurd rfl hne
  | cons pair rest ih =>
    obtain ⟨source, usable⟩ := pair
    simp only [map_cons, sum_cons] at hfits
    have hassigned : assigned ≤ kvTotal := Nat.le_trans (Nat.le_add_right _ _) hfits
    simp only [placeShares] at h
    generalize hsplit : (if rest.isEmpty then u64Sub kvTotal assigned
      else mulDivFloor kvTotal usable weightSum) = share at h
    split at h
    · cases h
    next hshare =>
    simp only [Option.map_eq_some_iff] at h
    obtain ⟨tail, htail, rfl⟩ := h
    cases rest with
    | nil =>
      simp only [placeShares, Option.some.injEq] at htail
      subst htail
      simp only [isEmpty_nil, if_true] at hsplit
      rw [u64Sub_of_le hassigned] at hsplit
      refine ⟨.cons ⟨rfl, ?_⟩ .nil, ?_⟩
      · simp only [placeRow]; omega
      · simp only [placeRow, map_cons, map_nil, sum_cons, sum_nil]; omega
    | cons next rest =>
      simp only [isEmpty_cons, Bool.false_eq_true, if_false] at hsplit
      rw [mulDivFloor_of_le (hweights _ mem_cons_self) hkv] at hsplit
      rw [hsplit] at hfits
      rw [u64Add_of_le (by omega)] at htail
      obtain ⟨hrows, hsum⟩ := ih (fun p hp => hweights p (mem_cons_of_mem _ hp))
        (by simp) (by omega) htail
      refine ⟨.cons ⟨rfl, ?_⟩ hrows, ?_⟩
      · simp only [placeRow]; omega
      · simp only [map_cons, sum_cons, placeRow] at hsum ⊢
        omega

/-- What an accepted allocation returns. -/
structure Allocated (input : PlanInput) (plan : Plan) (context : Nat) (quality : KvQuality)
    (out : Plan) : Prop where
  frame : out = { plan with
    devices := out.devices
    kvNativeSizing := input.kvBytesForContext.isSome
    kvBytesForContext := out.kvBytesForContext }
  query : ∀ query ∈ input.kvBytesForContext, out.kvBytesForContext = some (query quality)
  rows : List.Forall₂ (Placed input plan.expertPrefillStagingEnabled) input.devices out.devices
  shares : out.kvTotal = input.kvBytes quality context
  positive : 0 < input.kvBytes quality context
  small : input.kvBytes quality context < u64Max
  modules : input.mtpBytes + input.multimodalBytes ≤ u64Max

theorem placed_rows {usable devices rows} (hfree : ∀ device ∈ devices, device.freeBytes ≤ u64Max)
    (husable : List.Forall₂ (fun (device : DeviceInput) left => device.reserveBytes +
      device.denseBytes + device.graphBytes + input.prefillStaging enabled device.id +
      input.swapBytes device.id + left = device.freeBytes) devices usable)
    (hrows : List.Forall₂ (fun (pair : DeviceInput × Nat) row => row = placeRow pair.1
      (input.prefillStaging enabled pair.1.id) row.kvBytes ∧ row.kvBytes ≤ pair.2)
      (devices.zip usable) rows) :
    List.Forall₂ (Placed input enabled) devices rows := by
  induction husable generalizing rows with
  | nil =>
    cases hrows
    exact .nil
  | cons hleft _ ih =>
    cases hrows with
    | cons hrow hrest =>
      refine .cons ?_ (ih (fun d hd => hfree d (mem_cons_of_mem _ hd)) hrest)
      rw [hrow.1]
      exact placed_placeRow (hfree _ mem_cons_self) hleft hrow.2

/-- **An accepted allocation places all of the KV bytes within the devices.** -/
theorem allocateContext_spec {plan out context quality} (hin : input.InRange)
    (h : allocateContext input plan context quality = some out) :
    Allocated input plan context quality out := by
  simp only [allocateContext] at h
  split at h
  · cases h
  next hguard =>
  split at h
  · cases h
  next hkv =>
  simp only [Option.bind_eq_some_iff] at h
  obtain ⟨peak, hpeak, usable, husable, weightSum, hsum, h⟩ := h
  obtain ⟨rfl, hmodules⟩ := (addChecked_eq_some hin.mtp).mp hpeak
  obtain ⟨hweight, hmax⟩ := (sumChecked_eq_some (Nat.zero_le _)).mp hsum
  split at h
  · cases h
  next hfits =>
  simp only [Option.map_eq_some_iff] at h
  obtain ⟨rows, hrows, rfl⟩ := h
  rw [not_or] at hguard hkv hfits
  have hleft : List.Forall₂ (fun (device : DeviceInput) left => device.reserveBytes +
      device.denseBytes + device.graphBytes +
      input.prefillStaging plan.expertPrefillStagingEnabled device.id +
      input.swapBytes device.id + left = device.freeBytes) input.devices usable := by
    refine List.Forall₂.imp ?_ ((forall₂_and_left _ _).mpr
      ⟨hin.reserve, forall₂_of_mapM_eq_some husable⟩)
    intro device left hdevice
    exact usableBytes_spec hdevice.1 rfl hdevice.2
  have hzip : (input.devices.zip usable).map Prod.snd = usable :=
    map_snd_zip (Nat.le_of_eq hleft.length_eq.symm)
  have hweights : ∀ pair ∈ input.devices.zip usable, pair.2 ≤ weightSum := by
    intro pair hpair
    have hmem : pair.2 ∈ usable := hzip ▸ mem_map_of_mem hpair
    have := le_sum_of_mem hmem
    omega
  have hne : input.devices.zip usable ≠ [] := by
    intro hnil
    have hlen := congrArg length hzip
    rw [hnil] at hlen
    have := hleft.length_eq
    have hpos := length_pos_iff.mpr hguard.2
    simp only [map_nil, length_nil] at hlen
    omega
  have hfloors : 0 + ((input.devices.zip usable).map
      fun pair => input.kvBytes quality context * pair.2 / weightSum).sum ≤
        input.kvBytes quality context := by
    have hshares : (input.devices.zip usable).map
        (fun pair => input.kvBytes quality context * pair.2 / weightSum) =
          usable.map fun left => input.kvBytes quality context * left / weightSum := by
      conv_rhs => rw [← hzip, map_map]
      rfl
    rw [hshares, Nat.zero_add]
    exact sum_floor_shares_le (by omega)
  obtain ⟨hplaced, htotal⟩ := placeShares_spec (by omega) hweights hne hfloors hrows
  refine ⟨rfl, ?_, placed_rows hin.free hleft hplaced, ?_, by omega, by omega, hmodules⟩
  · intro query hquery
    rw [Option.mem_def.mp hquery]
  · rw [Plan.kvTotal, ← Nat.zero_add (sum _)]
    exact htotal

end ExpertStreaming.Planner
