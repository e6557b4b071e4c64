import ExpertStreaming.Planner.Finish

/-! # Plans are sound

In unbounded arithmetic the rows of a solved plan are exact sums within their devices,
the KV shares add up, and the context is aligned and not above its range. Two things need
a condition. The host row is reconciled with the RAM budget by the weights of the *input*,
and only the first host row is; and the search for a context loses the minimum where it
accepts `UINT32_MAX` units.
-/
namespace ExpertStreaming.Planner

open Lib List Option

/-- The row has no room beyond its weights. -/
def DeviceInput.Full (device : DeviceInput) : Prop :=
  device.freeBytes ≤ device.reserveBytes + device.denseBytes

/-- The first host row holds the host's weights, or nothing else; any other one, nothing else. -/
def HostRowsCounted (denseRam : Nat) : List DeviceInput → Prop
  | [] => True
  | host :: rest => (host.Full ∨ denseRam ≤ host.denseBytes) ∧ ∀ device ∈ rest, device.Full

/-- The budget counts all that the host rows can hold beyond their weights. -/
def PlanInput.HostRowsMatch (input : PlanInput) : Prop :=
  input.maxRamBytes = 0 ∨
    HostRowsCounted input.denseRamBytes (input.devices.filter (·.id < 0))

/-- What every plan that is solved is, in unbounded arithmetic. -/
structure Balanced (input : PlanInput) (plan : Plan) : Prop where
  /-- the rows are the devices of the input, in order -/
  devices : plan.devices.map (fun row => (row.id, row.capacityBytes, row.reserveBytes)) =
    input.devices.map fun device => (device.id, device.freeBytes, device.reserveBytes)
  planned : ∀ row ∈ plan.devices, row.plannedBytes = row.denseBytes + row.graphBytes +
    row.kvBytes + row.expertCacheBytes + row.expertPrefillStagingBytes + row.transientBytes
  fits : ∀ row ∈ plan.devices, row.reserveBytes + row.plannedBytes ≤ row.capacityBytes
  headroom : ∀ row ∈ plan.devices,
    row.headroomBytes = row.capacityBytes - (row.reserveBytes + row.plannedBytes)
  shares : plan.kvTotal = input.kvBytes plan.kvQuality plan.context
  /-- the device of the modules can hold the second one during an owner swap -/
  shared : plan.transientPolicy = .shared →
    (∃ row ∈ plan.devices, row.id = plan.transientDevice) ∧
    ∀ row ∈ plan.devices, row.id = plan.transientDevice →
      min input.mtpBytes input.multimodalBytes ≤ row.headroomBytes
  ram : plan.ramPlannedBytes = input.denseRamBytes + plan.hostGraphMetadataBytes +
    plan.ioStagingBytes + plan.qwen4expPleRamBytes + plan.expertRamBytes + plan.auxRamBytes
  quality : input.minKvQuality.rank ≤ plan.kvQuality.rank
  aligned : max 1 input.contextAlignment ∣ plan.context
  ceiling : plan.context ≤ input.ceiling

/-- The plan also keeps to the RAM budget and to the minimum context. -/
structure Sound (input : PlanInput) (plan : Plan) : Prop extends Balanced input plan where
  host : input.maxRamBytes ≠ 0 → plan.ramPlannedBytes + plan.hostNonWeight ≤ input.maxRamBytes
  minimum : max input.minContext input.slots ≤ plan.context

/-! ## Before the search -/

/-- The RAM fields a plan starts with. -/
structure Prepared (input : PlanInput) (plan : Plan) : Prop where
  ram : RamSum input plan
  le : plan.ramPlannedBytes ≤ u64Max
  budget : input.maxRamBytes ≠ 0 → plan.ramPlannedBytes ≤ input.maxRamBytes
  slots : plan.slots = input.slots
  capacity : plan.ramCapacityBytes = input.maxRamBytes
  contextMetadata : plan.hostContextMetadataBytes = 0
  graphWorkspace : plan.hostGraphWorkspaceBytes = 0

variable {input : PlanInput} {plan out found : Plan} {bounds : ContextBounds} {enabled : Bool}

theorem ramLeft_spec {fixed} (hin : input.InRange) (hle : fixed ≤ u64Max)
    (hbudget : ¬ (input.maxRamBytes ≠ 0 ∧ input.maxRamBytes < fixed)) :
    fixed + ramLeft input fixed ≤ u64Max ∧
      (input.maxRamBytes ≠ 0 → fixed + ramLeft input fixed ≤ input.maxRamBytes) := by
  have hmax := hin.maxRam
  unfold ramLeft
  split
  next hzero => exact ⟨by omega, fun hne => absurd hzero hne⟩
  next hne => exact ⟨by omega, fun _ => by omega⟩

theorem usefulExpertRam_le (input : PlanInput) (policy : MemoryPolicy) (expert : Nat) :
    usefulExpertRam input policy expert ≤ expert := by
  unfold usefulExpertRam
  split
  · exact Nat.zero_le _
  · exact Nat.le_refl _

theorem planRam_spec (hin : input.InRange) (h : planRam input plan = .ok out) :
    RamSum input out ∧ out.ramPlannedBytes ≤ u64Max ∧
      (input.maxRamBytes ≠ 0 → out.ramPlannedBytes ≤ input.maxRamBytes) ∧
      out = { plan with
        expertRamBytes := out.expertRamBytes
        auxRamBytes := out.auxRamBytes
        ramPlannedBytes := out.ramPlannedBytes } := by
  simp only [planRam] at h
  split at h
  · cases h
  next fixed hfixed =>
  obtain ⟨hsum, hle⟩ := (sumChecked_eq_some hin.denseRam).mp hfixed
  simp only [sum_cons, sum_nil, Nat.add_zero] at hsum
  split at h
  · cases h
  next hbudget =>
  split at h
  · cases h
  next hexpert =>
  cases h
  have hleft := ramLeft_spec hin hle hbudget
  have huseful := usefulExpertRam_le input plan.policy
    (requestedExpertRam input plan.policy (ramLeft input fixed))
  generalize usefulExpertRam input plan.policy
    (requestedExpertRam input plan.policy (ramLeft input fixed)) = expert at huseful
  have hinner : u64Add fixed expert = fixed + expert := u64Add_of_le (by omega)
  have houter : u64Add (fixed + expert) (min input.requestedAuxRamBytes
      (ramLeft input fixed - expert)) = fixed + expert + min input.requestedAuxRamBytes
        (ramLeft input fixed - expert) := u64Add_of_le (by omega)
  refine ⟨?_, ?_, ?_, rfl⟩
  · simp only [RamSum, hinner, houter]
    omega
  · simp only [hinner, houter]
    omega
  · intro hne
    have := hleft.2 hne
    simp only [hinner, houter]
    omega

theorem contextBounds_spec (h : contextBounds input = .ok bounds) :
    bounds.alignment = max 1 input.contextAlignment ∧
      bounds.highUnits = input.ceiling / max 1 input.contextAlignment ∧
      max input.minContext input.slots ≤ bounds.lowUnits * bounds.alignment := by
  have hpos : 0 < max 1 input.contextAlignment := by omega
  simp only [contextBounds] at h
  split at h
  · cases h
  · split at h
    · cases h
    · cases h
      refine ⟨rfl, Nat.mul_div_cancel _ hpos, ?_⟩
      rw [ContextBounds.lowUnits, Nat.mul_div_cancel _ hpos]
      exact Nat.le_trans (le_ceilDiv_mul hpos)
        (Nat.le_of_eq (by rw [Nat.ceilDiv_eq_add_pred_div]))

theorem prepare_spec (hin : input.InRange) (h : prepare input = .ok (plan, bounds)) :
    Prepared input plan ∧ contextBounds input = .ok bounds := by
  simp only [prepare] at h
  split at h
  · cases h
  split at h
  · cases h
  split at h
  · cases h
  obtain ⟨candidate, hcandidate, h⟩ := except_bind_eq_ok.mp h
  obtain ⟨range, hrange, h⟩ := except_bind_eq_ok.mp h
  cases h
  obtain ⟨hram, hle, hbudget, hframe⟩ := planRam_spec hin hcandidate
  refine ⟨⟨hram, hle, hbudget, ?_, ?_, ?_, ?_⟩, hrange⟩
  · rw [hframe]
  · rw [hframe]
  · rw [hframe]
  · rw [hframe]

/-! ## After the search -/

/-- What `finish` makes of a placement. -/
structure Finished (input : PlanInput) (found out : Plan) : Prop where
  frame : out = { found with
    batch := out.batch
    ubatch := out.ubatch
    transientDevice := input.transientHost
    transientMtpBytes := input.mtpBytes
    transientMultimodalBytes := input.multimodalBytes
    transientPolicy := out.transientPolicy
    transientCapacityBytes := out.transientCapacityBytes
    transientSwap := out.transientSwap
    draftResident := out.draftResident
    devices := out.devices
    expertRamBytes := out.expertRamBytes
    auxRamBytes := out.auxRamBytes
    ramPlannedBytes := out.ramPlannedBytes
    reason := out.reason }
  rows : List.Forall₂ (FinishedRow out) input.devices out.devices
  kv : out.kvTotal = found.kvTotal
  ram : RamSum input out
  le : out.ramPlannedBytes ≤ found.ramPlannedBytes
  budget : input.maxRamBytes ≠ 0 → ∀ host ∈ out.devices.find? (·.id < 0),
    out.ramPlannedBytes + (host.plannedBytes - min host.plannedBytes input.denseRamBytes) ≤
      input.maxRamBytes
  shared : out.transientPolicy = .shared → ∃ row ∈ out.devices, row.id = out.transientDevice

theorem FinishedRow.congr {plan' source row} (h : FinishedRow plan source row)
    (hdevice : plan'.transientDevice = plan.transientDevice)
    (hcapacity : plan'.transientCapacityBytes = plan.transientCapacityBytes)
    (hpolicy : plan'.transientPolicy = plan.transientPolicy)
    (hmtp : plan'.transientMtpBytes = plan.transientMtpBytes)
    (hmultimodal : plan'.transientMultimodalBytes = plan.transientMultimodalBytes) :
    FinishedRow plan' source row :=
  ⟨h.id_eq, h.capacity, h.reserve, h.dense, h.graph, by rw [hdevice, hcapacity]; exact h.transient,
    h.planned, h.headroom, by rw [hpolicy, hdevice, hmtp, hmultimodal]; exact h.swap⟩

theorem finishRows_spec {rows out devices} (hchosen : TransientChosen input plan)
    (hhost : plan.transientDevice = input.transientHost)
    (hmodules : input.mtpBytes + input.multimodalBytes ≤ u64Max)
    (hfree : ∀ device ∈ devices, device.freeBytes ≤ u64Max)
    (hrows : List.Forall₂ (Placed input enabled) devices rows)
    (hout : List.Forall₂ (fun row next => finishRow input plan row = some next) rows out) :
    List.Forall₂ (FinishedRow plan) devices out ∧
      out.map (·.kvBytes) = rows.map (·.kvBytes) := by
  induction hrows generalizing out with
  | nil =>
    cases hout
    exact ⟨.nil, rfl⟩
  | cons hrow _ ih =>
    cases hout with
    | cons hnext hrest =>
      obtain ⟨hfinished, hkv⟩ := finishRow_spec hchosen hhost hmodules
        (hfree _ mem_cons_self) hrow hnext
      obtain ⟨htail, hmap⟩ := ih (fun d hd => hfree d (mem_cons_of_mem _ hd)) hrest
      exact ⟨.cons hfinished htail, by rw [map_cons, map_cons, hkv, hmap]⟩

theorem head_id_eq {rows} (h : List.Forall₂ (Placed input enabled) input.devices rows) :
    (rows.head?.map (·.id)).getD 0 = (input.devices.head?.map (·.id)).getD 0 := by
  have hids : input.devices.map (·.id) = rows.map (·.id) :=
    map_eq_map_of_forall₂ (fun _ _ hrow => hrow.id_eq.symm) h
  rw [← head?_map, ← head?_map, hids]

theorem finish_spec {dropped} (hin : input.InRange)
    (hrows : List.Forall₂ (Placed input enabled) input.devices found.devices)
    (hmodules : input.mtpBytes + input.multimodalBytes ≤ u64Max) (hram : RamSum input found)
    (hle : found.ramPlannedBytes ≤ u64Max) (h : finish input found dropped = .ok out) :
    Finished input found out := by
  simp only [finish, head_id_eq hrows] at h
  rw [show (if input.transientDevice < 0 then (input.devices.head?.map (·.id)).getD 0
    else input.transientDevice) = input.transientHost from rfl] at h
  split at h
  · cases h
  next hpresent =>
  obtain ⟨choice, hchoice, h⟩ := except_bind_eq_ok.mp h
  obtain ⟨hcapacity, hshared⟩ := chooseTransient_spec hchoice
  split at h
  · cases h
  split at h
  · cases h
  next devices hdevices =>
  obtain ⟨plan, hplan, rfl⟩ := except_map_eq_ok.mp h
  obtain ⟨hfinished, hkv⟩ := finishRows_spec ⟨rfl, rfl, hcapacity, fun hs => (hshared hs).1⟩ rfl
    hmodules hin.free hrows (forall₂_of_mapM_eq_some hdevices)
  have hrec := reconcileHost_spec (by exact hram) (by exact hle) hplan
  have hdevs : plan.devices = devices := by rw [hrec.frame]
  refine ⟨?_, ?_, ?_, hrec.ram, hrec.le, ?_, ?_⟩
  · rw [hrec.frame]
  · rw [show ({ plan with reason := planReason plan dropped } : Plan).devices = plan.devices from
      rfl, hdevs]
    refine List.Forall₂.imp (fun _ _ hrow => hrow.congr ?_ ?_ ?_ ?_ ?_) hfinished
    · rw [hrec.frame]
    · rw [hrec.frame]
    · rw [hrec.frame]
    · rw [hrec.frame]
    · rw [hrec.frame]
  · rw [Plan.kvTotal, show ({ plan with reason := planReason plan dropped } : Plan).devices =
      plan.devices from rfl, hdevs, hkv]
    rfl
  · intro hne
    dsimp only
    rw [hdevs]
    exact hrec.budget hne
  · intro hpolicy
    have hfield : plan.transientPolicy = choice.1 := by rw [hrec.frame]
    have hmtp := (hshared (hfield.symm.trans hpolicy)).2
    obtain ⟨row, hrow⟩ := ne_none_iff_exists'.mp fun hnone => hpresent ⟨by omega, hnone⟩
    have hids : plan.devices.map (·.id) = found.devices.map (·.id) := by
      rw [hdevs, ← map_eq_map_of_forall₂ (fun _ _ h => h.id_eq.symm) hfinished]
      exact map_eq_map_of_forall₂ (fun _ _ h => h.id_eq.symm) hrows
    have hmem : row.id ∈ plan.devices.map (·.id) :=
      hids ▸ mem_map_of_mem (mem_of_find?_eq_some hrow)
    obtain ⟨host, hhost, hid⟩ := mem_map.mp hmem
    have hdevice : plan.transientDevice = input.transientHost := by rw [hrec.frame]
    refine ⟨host, hhost, hid.trans ?_⟩
    have := find?_some hrow
    exact (of_decide_eq_true this).trans hdevice.symm

/-! ## The host -/

theorem hostRows_forall₂ (h : List.Forall₂ (FinishedRow plan) input.devices plan.devices) :
    List.Forall₂ (FinishedRow plan) (input.devices.filter (·.id < 0)) plan.hostRows :=
  rel_filter (fun _ _ hrow => by dsimp only; rw [hrow.id_eq]) h

theorem FinishedRow.nonWeight_of_full {source row} (h : FinishedRow plan source row)
    (hfull : source.Full) : row.plannedBytes - row.denseBytes = 0 := by
  have hfits := h.headroom
  rw [h.capacity, h.reserve] at hfits
  rw [h.dense]
  unfold DeviceInput.Full at hfull
  omega

theorem sum_nonWeight_of_full {sources rows} (h : List.Forall₂ (FinishedRow plan) sources rows)
    (hfull : ∀ device ∈ sources, device.Full) :
    (rows.map fun row => row.plannedBytes - row.denseBytes).sum = 0 := by
  induction h with
  | nil => rfl
  | cons hrow _ ih =>
    rw [map_cons, sum_cons, hrow.nonWeight_of_full (hfull _ mem_cons_self),
      ih fun device hdevice => hfull device (mem_cons_of_mem _ hdevice)]

theorem Finished.host_le (h : Finished input found out) (hmatch : input.HostRowsMatch)
    (hprepared : input.maxRamBytes ≠ 0 → found.ramPlannedBytes ≤ input.maxRamBytes)
    (hne : input.maxRamBytes ≠ 0) :
    out.ramPlannedBytes + out.hostNonWeight ≤ input.maxRamBytes := by
  have hcounted := hmatch.resolve_left hne
  have hbudget := h.budget hne
  have hrows := hostRows_forall₂ h.rows
  have hram := (h.le).trans (hprepared hne)
  rw [← head?_filter] at hbudget
  unfold Plan.hostNonWeight
  unfold Plan.hostRows at hrows ⊢
  generalize out.devices.filter (·.id < 0) = rows at hbudget hrows
  generalize input.devices.filter (·.id < 0) = sources at hcounted hrows
  cases hrows with
  | nil => simpa using hram
  | @cons source row _ _ hrow hrest =>
    have hfirst := hbudget row (mem_def.mpr rfl)
    rw [map_cons, sum_cons, sum_nonWeight_of_full hrest hcounted.2]
    rcases hcounted.1 with hfull | hdense
    · rw [hrow.nonWeight_of_full hfull]
      omega
    · have := hrow.dense
      omega

/-! ## Whole plans -/

theorem contextBounds_inRange (hin : input.InRange) (h : contextBounds input = .ok bounds) :
    bounds.InRange := by
  obtain ⟨halign, hhigh, -⟩ := contextBounds_spec h
  have hceiling : input.ceiling ≤ u32Max := by
    have := hin.requested
    have := hin.limit
    unfold PlanInput.ceiling
    split
    · assumption
    · split
      · assumption
      · omega
  refine ⟨?_, ?_⟩
  · rw [hhigh]
    exact (Nat.div_le_self _ _).trans hceiling
  · rw [hhigh, halign]
    exact (Nat.div_mul_le_self _ _).trans hceiling

theorem searchEnds_of_lt (hin : input.InRange)
    (h : input.ceiling / max 1 input.contextAlignment < u32Max) : input.SearchEnds := by
  intro candidate bounds hprepare
  obtain ⟨-, hhigh, -⟩ := contextBounds_spec (prepare_spec hin hprepare).2
  rw [← hhigh] at h
  exact ⟨fun _ => cut_of_lt h, fun _ _ _ _ => cut_of_lt h⟩

theorem solve_spec {fuel} (hin : input.InRange) (h : solve fuel input = some (.ok out)) :
    ∃ bounds base found, Prepared input base ∧ contextBounds input = .ok bounds ∧
      Chosen input bounds base found ∧ Finished input found out ∧
      (input.SearchEnds → Unwrapped input bounds base.expertPrefillStagingEnabled) := by
  unfold solve at h
  split at h
  · cases h
  next candidate bounds hprepare =>
  obtain ⟨hprepared, hbounds⟩ := prepare_spec hin hprepare
  simp only [map_eq_some_iff] at h
  obtain ⟨r, hchoose, h⟩ := h
  cases r with
  | error message => cases h
  | ok pair =>
    obtain ⟨found, dropped⟩ := pair
    obtain ⟨enabled, hchosen, hends⟩ :=
      chooseContext_chosen hin (contextBounds_inRange hin hbounds) hchoose
    have hframe := hchosen.allocated.frame
    have hram : found.ramPlannedBytes = candidate.ramPlannedBytes := by rw [hframe]
    refine ⟨bounds, { candidate with expertPrefillStagingEnabled := enabled }, found,
      ⟨hprepared.ram, hprepared.le, hprepared.budget, hprepared.slots, hprepared.capacity,
        hprepared.contextMetadata, hprepared.graphWorkspace⟩, hbounds, hchosen, ?_,
      fun hsearch => hends (hsearch _ _ hprepare)⟩
    refine finish_spec hin hchosen.allocated.rows hchosen.allocated.modules ?_
      (hram ▸ hprepared.le) h
    rw [hframe]
    exact hprepared.ram

theorem Finished.balanced {base} (hbounds : contextBounds input = .ok bounds)
    (hchosen : Chosen input bounds base found) (h : Finished input found out) :
    Balanced input out := by
  have hquality : out.kvQuality = found.kvQuality := by rw [h.frame]
  have hcontext : out.context = found.context := by rw [h.frame]
  have hmtp : out.transientMtpBytes = input.mtpBytes := by rw [h.frame]
  have hmulti : out.transientMultimodalBytes = input.multimodalBytes := by rw [h.frame]
  obtain ⟨halign, hhigh, -⟩ := contextBounds_spec hbounds
  obtain ⟨units, hhighUnits, hunits, -⟩ := hchosen.aligned
  have hrow : ∀ row ∈ out.devices, ∃ source ∈ input.devices, FinishedRow out source row :=
    fun row hmem => exists_of_forall₂_right h.rows hmem
  refine ⟨?_, ?_, ?_, ?_, ?_, ?_, h.ram, ?_, ?_, ?_⟩
  · refine (map_eq_map_of_forall₂ ?_ h.rows).symm
    intro source row hfin
    rw [hfin.id_eq, hfin.capacity, hfin.reserve]
  · intro row hmem
    obtain ⟨source, -, hfin⟩ := hrow row hmem
    rw [hfin.planned]
    simp only [DevicePlan.parts, sum_cons, sum_nil]
    omega
  · intro row hmem
    obtain ⟨source, -, hfin⟩ := hrow row hmem
    have := hfin.headroom
    omega
  · intro row hmem
    obtain ⟨source, -, hfin⟩ := hrow row hmem
    have := hfin.headroom
    omega
  · rw [h.kv, hchosen.allocated.shares, hquality, hcontext]
  · intro hshared
    refine ⟨h.shared hshared, fun row hmem hid => ?_⟩
    obtain ⟨source, -, hfin⟩ := hrow row hmem
    rw [← hmtp, ← hmulti]
    exact hfin.swap hshared hid
  · rw [hquality]
    exact hchosen.quality
  · rw [hcontext, hunits, halign]
    exact Nat.dvd_mul_left _ _
  · rw [hcontext, hunits, halign]
    exact Nat.le_trans (Nat.mul_le_mul_right _ (hhigh ▸ hhighUnits)) (Nat.div_mul_le_self _ _)

theorem Finished.budget_kept {base} (hmatch : input.HostRowsMatch) (hprepared : Prepared input base)
    (hchosen : Chosen input bounds base found) (h : Finished input found out)
    (hne : input.maxRamBytes ≠ 0) :
    out.ramPlannedBytes + out.hostNonWeight ≤ input.maxRamBytes := by
  have hfound : found.ramPlannedBytes = base.ramPlannedBytes := by rw [hchosen.allocated.frame]
  exact h.host_le hmatch (fun hne => hfound ▸ hprepared.budget hne) hne

theorem Finished.minimum_kept {base} (hbounds : contextBounds input = .ok bounds)
    (hends : Unwrapped input bounds base.expertPrefillStagingEnabled)
    (hchosen : Chosen input bounds base found) (h : Finished input found out) :
    max input.minContext input.slots ≤ out.context := by
  have hcontext : out.context = found.context := by rw [h.frame]
  obtain ⟨-, -, hlow⟩ := contextBounds_spec hbounds
  obtain ⟨units, -, hunits, hlowUnits⟩ := hchosen.aligned
  rw [hcontext, hunits]
  exact Nat.le_trans hlow (Nat.mul_le_mul_right _ (hlowUnits hends))

theorem solve_sound {fuel} (hin : input.InRange) (hmatch : input.HostRowsMatch)
    (hsearch : input.SearchEnds) (h : solve fuel input = some (.ok out)) : Sound input out := by
  obtain ⟨bounds, base, found, hprepared, hbounds, hchosen, hfinished, hends⟩ := solve_spec hin h
  exact ⟨hfinished.balanced hbounds hchosen, hfinished.budget_kept hmatch hprepared hchosen,
    hfinished.minimum_kept hbounds (hends hsearch) hchosen⟩

end ExpertStreaming.Planner
