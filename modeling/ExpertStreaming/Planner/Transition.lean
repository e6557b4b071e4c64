import ExpertStreaming.Planner.Peak
import ExpertStreaming.Lib.Trace
import ExpertStreaming.Lib.Fold

/-! # Memory through a transition

A transition prepares the replacement pools beside the running ones, loads the next
transient owner beside the live one, publishes, and only then releases what it
replaced; or it rolls back. This is a machine of its own: a point says which pools and
owners exist, and `deviceLive` and `hostLive` count their bytes. What the check of the
preparation peak accepts fits at every point of it.
-/
namespace ExpertStreaming.Planner

open Lib List

/-- What a transition changes: two plans with their real KV rows, and the host memory
that no row holds. -/
structure Change where
  current : Plan
  target : Plan
  forceExpertCache : Bool
  forceTransient : Bool
  /-- host bytes observed beyond the reservations -/
  observed : Nat
  /-- KV bytes of a host without a row, before and after -/
  hostKv : Nat
  nextHostKv : Nat
  /-- host bytes that the migration itself takes -/
  scratch : Nat

/-- A pool that is replaced exists twice until the old one is released. -/
inductive PoolStage where
  | held
  | both
  | replaced
  deriving DecidableEq

inductive OwnerStage where
  /-- the owner of the running plan -/
  | resting
  /-- the next owner is loaded and the live one kept for a rollback -/
  | both (live next : TransientOwner)
  /-- the former owner is released -/
  | settled (next : TransientOwner)
  /-- the target plan is in force -/
  | reserved
  deriving DecidableEq

structure Point where
  kv : PoolStage := .held
  expert : PoolStage := .held
  owner : OwnerStage := .resting
  published : Bool := false
  deriving DecidableEq

namespace Change

def preparesKv (c : Change) : Bool := Planner.preparesKv c.current c.target

def preparesExpert (c : Change) : Bool :=
  preparesExpertCache c.forceExpertCache c.current c.target

def preparesOwner (c : Change) : Bool :=
  preparesTransient c.forceTransient c.current c.target

/-- The owners that can be live: an exclusive module, or under the shared policy either or none.
-/
def liveOwners (c : Change) : List TransientOwner :=
  if c.forceTransient then [.nobody, .mtp, .multimodal]
  else
    match c.current.transientPolicy with
    | .off => [.nobody]
    | .mtpOnly => [.mtp]
    | .multimodalOnly => [.multimodal]
    | .shared => [.nobody, .mtp, .multimodal]

inductive Step (c : Change) : Point → Point → Prop
  | prepareKv {p : Point} : c.preparesKv = true → p.kv = .held → Step c p { p with kv := .both }
  | prepareExpert {p : Point} : c.preparesExpert = true → p.expert = .held →
      Step c p { p with expert := .both }
  | prepareOwner {p : Point} {live : TransientOwner} : c.preparesOwner = true →
      live ∈ c.liveOwners → p.owner = .resting →
      Step c p { p with owner := .both live (targetOwner c.target.transientPolicy live) }
  | publish {p : Point} : Step c p { p with published := true }
  | releaseOwner {p : Point} {live next : TransientOwner} : p.published = true →
      p.owner = .both live next → Step c p { p with owner := .settled next }
  | releaseExpert {p : Point} : p.published = true → p.expert = .both →
      Step c p { p with expert := .replaced }
  | releaseKv {p : Point} : p.published = true → p.kv = .both → Step c p { p with kv := .replaced }
  /-- every replaced pool and owner is released, and the target plan is in force -/
  | finish {p : Point} : p.published = true →
      p.kv = (if c.preparesKv then .replaced else .held) →
      p.expert = (if c.preparesExpert then .replaced else .held) →
      (c.preparesOwner = true → ∃ next, p.owner = .settled next) →
      Step c p { p with owner := .reserved }
  /-- nothing that was replaced is released yet -/
  | rollback {p : Point} : p.kv ≠ .replaced → p.expert ≠ .replaced → Step c p {}

def Reaches (c : Change) (p : Point) : Prop := Relation.ReflTransGen (Step c) {} p

/-! ## Bytes -/

def poolBytes (stage : PoolStage) (live next : Nat) : Nat :=
  match stage with
  | .held => live
  | .both => live + next
  | .replaced => next

/-- The device of the transient modules, as the running plan has it. -/
def Hosts (c : Change) (row : DevicePlan) : Prop :=
  c.current.devices.find? (·.id = c.current.transientDevice) = some row

instance (c : Change) (row : DevicePlan) : Decidable (c.Hosts row) :=
  inferInstanceAs (Decidable (_ = _))

def ownersBytes (c : Change) : OwnerStage → Nat
  | .both live next => ownerBytes c.current live +
      if loadsOwner c.forceTransient live next then ownerBytes c.current next else 0
  | .settled next => ownerBytes c.current next
  | _ => 0

/-- The transient bytes of a row. Until the target plan is in force the running plan
keeps its own. -/
def transientBytes (c : Change) (p : Point) (live next : DevicePlan) : Nat :=
  match p.owner with
  | .reserved => next.transientBytes
  | stage => if c.Hosts live then max live.transientBytes (c.ownersBytes stage)
      else live.transientBytes

def deviceLive (c : Change) (p : Point) (live next : DevicePlan) : Nat :=
  live.denseBytes + live.graphBytes + poolBytes p.kv live.kvBytes next.kvBytes +
    poolBytes p.expert live.expertCacheBytes next.expertCacheBytes +
    live.expertPrefillStagingBytes + c.transientBytes p live next

def hostKvLive (c : Change) (p : Point) : Nat :=
  match p.kv with
  | .held => c.hostKv
  | .both => c.hostKv + c.nextHostKv + c.scratch
  | .replaced => c.nextHostKv

/-- The bytes live in host memory. The weights of a host row are part of the RAM
reservation. -/
def hostLive (c : Change) (p : Point) : Nat :=
  c.current.ramPlannedBytes + c.observed + c.hostKvLive p +
    ((pairedRows c.current c.target).map fun pair =>
      if pair.1.id < 0 then c.deviceLive p pair.1 pair.2 - pair.1.denseBytes else 0).sum

/-- The RAM a plan may use: its budget and what every host row has beyond its reserve. -/
def usableRam (c : Change) : Nat :=
  c.current.devices.foldl (fun usable row => if row.id < 0 then min usable row.usable else usable)
    (if c.current.ramCapacityBytes ≠ 0 then c.current.ramCapacityBytes else u64Max)

end Change

/-! ## Reachable points -/

structure Point.Valid (c : Change) (p : Point) : Prop where
  kv : p.kv ≠ .held → c.preparesKv = true
  expert : p.expert ≠ .held → c.preparesExpert = true
  both : ∀ live next, p.owner = .both live next → c.preparesOwner = true ∧
    live ∈ c.liveOwners ∧ next = targetOwner c.target.transientPolicy live
  settled : ∀ next, p.owner = .settled next → c.preparesOwner = true ∧
    ∃ live ∈ c.liveOwners, next = targetOwner c.target.transientPolicy live
  reserved : p.owner = .reserved →
    p.kv = (if c.preparesKv then .replaced else .held) ∧
    p.expert = (if c.preparesExpert then .replaced else .held)

theorem Point.valid_start (c : Change) : Point.Valid c {} :=
  ⟨fun h => absurd rfl h, fun h => absurd rfl h, fun _ _ h => (nomatch h), fun _ h => (nomatch h),
    fun h => (nomatch h)⟩

variable {c : Change} {p : Point} {live : DevicePlan} {pairs : List (DevicePlan × DevicePlan)}
  {additional : Nat} {pair : DevicePlan × DevicePlan} {tally : RamTally}
  {out : RamTally × PreparationPeak} {tracked : Option HostMemory} {report : PreparationPeak}
  {native : Option KvPreparation} {R : DevicePlan × DevicePlan → DevicePeak → Prop}
  {g : DevicePeak × DevicePlan → Nat} {devices : List DevicePeak}

/-- **Every step of a transition leads to a valid point.** -/
theorem Point.Valid.step {q} (hp : p.Valid c) (h : c.Step p q) :
    q.Valid c := by
  cases h with
  | prepareKv hprepares hheld =>
    refine ⟨fun _ => hprepares, hp.expert, hp.both, hp.settled, fun howner => ?_⟩
    have := (hp.reserved howner).1
    rw [hheld, if_pos hprepares] at this
    cases this
  | prepareExpert hprepares hheld =>
    refine ⟨hp.kv, fun _ => hprepares, hp.both, hp.settled, fun howner => ?_⟩
    have := (hp.reserved howner).2
    rw [hheld, if_pos hprepares] at this
    cases this
  | prepareOwner hprepares hlive _ =>
    refine ⟨hp.kv, hp.expert, fun live next howner => ?_, fun _ howner => (nomatch howner),
      fun howner => (nomatch howner)⟩
    obtain ⟨rfl, rfl⟩ := OwnerStage.both.inj howner
    exact ⟨hprepares, hlive, rfl⟩
  | publish => exact ⟨hp.kv, hp.expert, hp.both, hp.settled, hp.reserved⟩
  | releaseOwner _ hboth =>
    obtain ⟨hprepares, hlive, rfl⟩ := hp.both _ _ hboth
    refine ⟨hp.kv, hp.expert, fun _ _ howner => (nomatch howner), fun next howner => ?_,
      fun howner => (nomatch howner)⟩
    obtain rfl := OwnerStage.settled.inj howner
    exact ⟨hprepares, _, hlive, rfl⟩
  | releaseExpert _ hboth =>
    have hprepares := hp.expert (by rw [hboth]; exact PoolStage.noConfusion)
    refine ⟨hp.kv, fun _ => hprepares, hp.both, hp.settled, fun howner => ?_⟩
    exact ⟨(hp.reserved howner).1, by rw [if_pos hprepares]⟩
  | releaseKv _ hboth =>
    have hprepares := hp.kv (by rw [hboth]; exact PoolStage.noConfusion)
    refine ⟨fun _ => hprepares, hp.expert, hp.both, hp.settled, fun howner => ?_⟩
    exact ⟨by rw [if_pos hprepares], (hp.reserved howner).2⟩
  | finish _ hkv hexpert _ =>
    exact ⟨hp.kv, hp.expert, fun _ _ howner => (nomatch howner), fun _ howner => (nomatch howner),
      fun _ => ⟨hkv, hexpert⟩⟩
  | rollback _ _ => exact Point.valid_start c

theorem Point.valid_of_reaches (h : c.Reaches p) : p.Valid c := by
  induction h with
  | refl => exact Point.valid_start c
  | tail _ hstep ih => exact ih.step hstep

/-! ## What the check accepts -/

/-- One device of an accepted preparation. -/
structure Accepted (preparing : Preparing) (live next : DevicePlan) (device : DevicePeak) :
    Prop where
  id_eq : device.id = live.id
  usable : device.capacityBytes - device.reserveBytes = live.usable
  reserve : live.reserveBytes ≤ live.capacityBytes
  currentLive : device.currentLiveBytes = live.parts.sum
  targetLive : device.targetLiveBytes = next.parts.sum
  peak : device.peakBytes = live.parts.sum + (if preparing.kv then next.kvBytes else 0) +
    (if preparing.expertCache then next.expertCacheBytes else 0) +
    if preparing.transient && live.id = preparing.transientDevice then preparing.additionalPeak
      else 0
  fits : device.peakBytes ≤ live.usable
  target_fits : next.parts.sum ≤ live.usable

theorem devicePeak_spec {preparing next device} (h : devicePeak preparing live next = .ok device) :
    Accepted preparing live next device := by
  unfold devicePeak at h
  split at h
  · cases h
  next hreserve =>
  split at h
  · cases h
  next currentLive hcurrent =>
  split at h
  · cases h
  next targetLive htarget =>
  split at h
  · cases h
  split at h
  · cases h
  next hlive =>
  dsimp only at h
  split at h
  · cases h
  next peak hpeak =>
  split at h
  · cases h
  next hfits =>
  cases h
  have hc := sum_of_sumChecked hcurrent
  have ht := sum_of_sumChecked htarget
  have hp := sum_of_sumChecked hpeak
  simp only [sum_cons, sum_nil] at hp
  rw [not_or] at hlive
  exact ⟨rfl, rfl, by omega, by dsimp only; omega, by dsimp only; omega, by dsimp only; omega,
    by dsimp only; omega, by omega⟩

/-- The immutable parts agree in both rows of a device. -/
structure SameFixed (live next : DevicePlan) : Prop where
  id_eq : live.id = next.id
  dense : live.denseBytes = next.denseBytes
  graph : live.graphBytes = next.graphBytes
  staging : live.expertPrefillStagingBytes = next.expertPrefillStagingBytes

theorem checkRows_spec (h : checkRows pairs = .ok ()) :
    ∀ pair ∈ pairs, SameFixed pair.1 pair.2 := by
  induction pairs with
  | nil => intro pair hpair; cases hpair
  | cons head rest ih =>
    simp only [checkRows] at h
    split at h
    · cases h
    next htopology =>
    split at h
    · cases h
    next hfixed =>
    simp only [not_or, not_not] at htopology hfixed
    intro pair hpair
    rcases mem_cons.mp hpair with rfl | hpair
    · exact ⟨htopology.1, hfixed.1, hfixed.2.1, hfixed.2.2⟩
    · exact ih h pair hpair

/-! ## Owners -/

def changeBytes (force : Bool) (plan : Plan) (policy : TransientPolicy) (live : TransientOwner) :
    Nat :=
  ownerBytes plan live + if loadsOwner force live (targetOwner policy live) then
    ownerBytes plan (targetOwner policy live) else 0

theorem ownerPeak_eq {force plan policy live peak}
    (h : ownerPeak force plan policy live = some peak) :
    peak = changeBytes force plan policy live := by
  unfold ownerPeak at h
  unfold changeBytes
  split at h
  next hloads =>
    rw [if_pos hloads]
    exact add_of_addChecked h
  next hloads =>
    rw [if_neg hloads]
    exact (Option.some.inj h).symm

theorem ownerBytes_target_le (force : Bool) (plan : Plan) (policy : TransientPolicy)
    (live : TransientOwner) :
    ownerBytes plan (targetOwner policy live) ≤ changeBytes force plan policy live := by
  unfold changeBytes
  by_cases hloads : loadsOwner force live (targetOwner policy live) = true
  · rw [if_pos hloads]
    exact Nat.le_add_left _ _
  · rw [if_neg hloads, Nat.add_zero]
    cases htarget : targetOwner policy live with
    | nobody => exact Nat.zero_le _
    | mtp =>
      have hsame : live = .mtp := by
        by_contra hne
        exact hloads (by simp [loadsOwner, htarget, Ne.symm hne])
      rw [hsame]
    | multimodal =>
      have hsame : live = .multimodal := by
        by_contra hne
        exact hloads (by simp [loadsOwner, htarget, Ne.symm hne])
      rw [hsame]

theorem exists_possible_owner (c : Change) {live} (h : live ∈ c.liveOwners) :
    ∃ other ∈ possibleOwners c.forceTransient c.current.transientPolicy,
      changeBytes c.forceTransient c.current c.target.transientPolicy live ≤
        changeBytes c.forceTransient c.current c.target.transientPolicy other := by
  unfold Change.liveOwners at h
  unfold possibleOwners
  split at h
  next hforce => exact ⟨live, by rwa [if_pos hforce], Nat.le_refl _⟩
  next hforce =>
  rw [if_neg hforce]
  cases hpolicy : c.current.transientPolicy with
  | off | mtpOnly | multimodalOnly =>
    rw [hpolicy] at h
    exact ⟨live, h, Nat.le_refl _⟩
  | shared =>
    cases live with
    | mtp => exact ⟨.mtp, by simp, Nat.le_refl _⟩
    | multimodal => exact ⟨.multimodal, by simp, Nat.le_refl _⟩
    | nobody =>
      rw [Bool.not_eq_true] at hforce
      cases htarget : c.target.transientPolicy with
      | off => exact ⟨.mtp, by simp, Nat.zero_le _⟩
      | mtpOnly =>
        refine ⟨.mtp, by simp, ?_⟩
        simp [changeBytes, targetOwner, loadsOwner, ownerBytes]
      | multimodalOnly =>
        refine ⟨.multimodal, by simp, ?_⟩
        simp [changeBytes, targetOwner, loadsOwner, ownerBytes]
      | shared =>
        refine ⟨.mtp, by simp, ?_⟩
        simp [changeBytes, targetOwner, loadsOwner, ownerBytes, hforce]

/-- **An owner change takes no more than the plan and the additional peak.** -/
theorem changeBytes_le (c : Change)
    (h : transientAdditionalPeak c.forceTransient c.current c.target = .ok additional)
    (hprepares : c.preparesOwner = true) (hhosts : c.Hosts live) {owner}
    (howner : owner ∈ c.liveOwners) :
    changeBytes c.forceTransient c.current c.target.transientPolicy owner ≤
      live.transientBytes + additional := by
  unfold transientAdditionalPeak at h
  rw [if_pos (show preparesTransient _ _ _ = true from hprepares)] at h
  split at h
  · cases h
  next peaks hpeaks =>
  rw [show c.current.devices.find? _ = some live from hhosts] at h
  have hsub := Except.ok.inj h
  obtain ⟨other, hother, hle⟩ := exists_possible_owner c howner
  obtain ⟨peak, hpeak, hfound⟩ :=
    exists_of_forall₂_right (forall₂_of_mapM_eq_some hpeaks).flip hother
  have hbound : peak ≤ peaks.foldl max 0 := le_foldl_max (.inl hpeak)
  have hbytes := ownerPeak_eq hfound
  omega

theorem ownersBytes_le (c : Change)
    (h : transientAdditionalPeak c.forceTransient c.current c.target = .ok additional)
    (hhosts : c.Hosts live) (hp : p.Valid c) (hstage : p.owner ≠ .reserved) :
    c.ownersBytes p.owner ≤ live.transientBytes +
      if c.preparesOwner then additional else 0 := by
  cases howner : p.owner with
  | resting => exact Nat.zero_le _
  | reserved => exact absurd howner hstage
  | both owner next =>
    obtain ⟨hprepares, hmem, rfl⟩ := hp.both _ _ howner
    rw [if_pos hprepares]
    exact changeBytes_le c h hprepares hhosts hmem
  | settled next =>
    obtain ⟨hprepares, owner, hmem, rfl⟩ := hp.settled _ howner
    rw [if_pos hprepares]
    exact Nat.le_trans (ownerBytes_target_le _ _ _ owner)
      (changeBytes_le c h hprepares hhosts hmem)

/-! ## Devices -/

def Change.preparing (c : Change) (additional : Nat) : Preparing :=
  { kv := c.preparesKv
    expertCache := c.preparesExpert
    transient := c.preparesOwner
    transientDevice := c.current.transientDevice
    additionalPeak := additional }

theorem Change.poolBytes_le {stage live next prepares} (h : stage ≠ .held → prepares = true) :
    Change.poolBytes stage live next ≤ live + if prepares then next else 0 := by
  cases stage with
  | held => exact Nat.le_add_right _ _
  | both =>
    rw [h PoolStage.noConfusion]
    exact Nat.le_refl _
  | replaced =>
    rw [h PoolStage.noConfusion]
    exact Nat.le_add_left _ _

theorem Change.deviceLive_le_peak (c : Change) {next device}
    (hadditional : transientAdditionalPeak c.forceTransient c.current c.target = .ok additional)
    (hp : p.Valid c) (hstage : p.owner ≠ .reserved)
    (h : Accepted (c.preparing additional) live next device) :
    c.deviceLive p live next ≤ device.peakBytes := by
  have hkv : Change.poolBytes p.kv live.kvBytes next.kvBytes ≤ _ := poolBytes_le hp.kv
  have hexpert : Change.poolBytes p.expert live.expertCacheBytes next.expertCacheBytes ≤ _ :=
    poolBytes_le hp.expert
  have htransient : c.transientBytes p live next ≤ live.transientBytes +
      if c.preparesOwner && decide (live.id = c.current.transientDevice) then additional else 0 := by
    have hunfold : c.transientBytes p live next =
        if c.Hosts live then max live.transientBytes (c.ownersBytes p.owner)
        else live.transientBytes := by
      unfold transientBytes
      split
      next howner => exact absurd howner hstage
      · rfl
    rw [hunfold]
    split
    next hhosts =>
      have hid : live.id = c.current.transientDevice := by
        simpa using find?_some (show c.current.devices.find? _ = some live from hhosts)
      have howners := ownersBytes_le c hadditional hhosts hp hstage
      simp only [hid, decide_true, Bool.and_true]
      omega
    · exact Nat.le_add_right _ _
  have hpeak : device.peakBytes = live.parts.sum + (if c.preparesKv then next.kvBytes else 0) +
      (if c.preparesExpert then next.expertCacheBytes else 0) +
      if c.preparesOwner && decide (live.id = c.current.transientDevice) then additional else 0 :=
    h.peak
  simp only [DevicePlan.parts, sum_cons, sum_nil] at hpeak
  unfold deviceLive
  omega

theorem eq_of_any_ne_false {f : DevicePlan → Nat}
    (h : (pairs.any fun pair => f pair.1 ≠ f pair.2) = false) :
    ∀ pair ∈ pairs, f pair.1 = f pair.2 := by
  intro pair hpair
  have := any_eq_false.mp h pair hpair
  simpa using this

theorem Change.poolBytes_reserved {stage live next prepares}
    (hstage : stage = if prepares then .replaced else .held)
    (hsame : prepares = false → live = next) : Change.poolBytes stage live next = next := by
  cases prepares with
  | true => rw [hstage]; rfl
  | false => rw [hstage, hsame rfl]; rfl

theorem Change.deviceLive_reserved (c : Change) (hpair : pair ∈ pairedRows c.current c.target)
    (hp : p.Valid c) (hstage : p.owner = .reserved) (hfixed : SameFixed pair.1 pair.2) :
    c.deviceLive p pair.1 pair.2 = pair.2.parts.sum := by
  obtain ⟨hkv, hexpert⟩ := hp.reserved hstage
  have hkvSame : c.preparesKv = false → pair.1.kvBytes = pair.2.kvBytes := by
    intro hfalse
    have hany := (Bool.or_eq_false_iff.mp hfalse).2
    exact eq_of_any_ne_false hany pair hpair
  have hexpertSame : c.preparesExpert = false →
      pair.1.expertCacheBytes = pair.2.expertCacheBytes := by
    intro hfalse
    have hany := (Bool.or_eq_false_iff.mp hfalse).2
    exact eq_of_any_ne_false hany pair hpair
  have htransient : c.transientBytes p pair.1 pair.2 = pair.2.transientBytes := by
    unfold transientBytes
    rw [hstage]
  simp only [deviceLive, poolBytes_reserved hkv hkvSame, poolBytes_reserved hexpert hexpertSame,
    htransient, hfixed.dense, hfixed.graph, hfixed.staging, DevicePlan.parts, sum_cons,
    sum_nil]
  omega

/-! ## The host -/

def hostPart (id : Int) (bytes dense : Nat) : Nat := if id < 0 then bytes - dense else 0

theorem tallyHost_spec {rows out} (h : tallyHost tally rows = .ok out) :
    out.current = tally.current + (rows.map fun row =>
      hostPart row.1.id row.1.currentLiveBytes row.2.denseBytes).sum ∧
    out.target = tally.target + (rows.map fun row =>
      hostPart row.1.id row.1.targetLiveBytes row.2.denseBytes).sum ∧
    out.peak = tally.peak + (rows.map fun row =>
      hostPart row.1.id row.1.peakBytes row.2.denseBytes).sum ∧
    out.graph = tally.graph + (rows.map fun row =>
      hostPart row.1.id row.2.graphBytes 0).sum ∧
    out.usable = rows.foldl (fun usable row => if row.1.id < 0 then
      min usable (row.1.capacityBytes - row.1.reserveBytes) else usable) tally.usable := by
  induction rows generalizing tally with
  | nil =>
    cases h
    simp
  | cons row rest ih =>
    obtain ⟨device, live⟩ := row
    simp only [tallyHost] at h
    simp only [map_cons, sum_cons, foldl_cons, hostPart]
    split at h
    next haccelerator =>
      obtain ⟨hc, ht, hp, hg, hu⟩ := ih h
      simp only [hostPart] at hc ht hp hg
      rw [if_neg (by omega), if_neg (by omega), if_neg (by omega), if_neg (by omega),
        if_neg (by omega)]
      exact ⟨by omega, by omega, by omega, by omega, hu⟩
    next hhost =>
    split at h
    · cases h
    next graph hgraph =>
    split at h
    next hcurrent htarget hpeak =>
      obtain ⟨hc, ht, hp, hg, hu⟩ := ih h
      have h1 := add_of_addChecked hcurrent
      have h2 := add_of_addChecked htarget
      have h3 := add_of_addChecked hpeak
      have h4 := add_of_addChecked hgraph
      simp only [hostPart] at hc ht hp hg
      rw [if_pos (by omega), if_pos (by omega), if_pos (by omega), if_pos (by omega),
        if_pos (by omega)]
      exact ⟨by omega, by omega, by omega, by omega, hu⟩
    · cases h

def observedBytes (current : Plan) (graph : Nat) : Option HostMemory → Nat
  | none => 0
  | some memory =>
    (memory.weightsBytes - (current.ramPlannedBytes - current.reservations.sum)) +
    (memory.fixedBytes - (graph + current.hostGraphMetadataBytes +
      current.hostContextMetadataBytes + current.hostGraphWorkspaceBytes)) +
    (memory.pleCacheBytes - current.qwen4expPleRamBytes)

theorem addTracked_spec {current target}
    (h : addTracked current target tracked tally report = .ok out) :
    out.1.usable = tally.usable ∧ out.2.preparesKv = report.preparesKv ∧
    out.1.current = tally.current + observedBytes current tally.graph tracked ∧
    out.1.target = tally.target + observedBytes current tally.graph tracked ∧
    out.1.peak = tally.peak + observedBytes current tally.graph tracked := by
  cases tracked with
  | none =>
    cases h
    exact ⟨rfl, rfl, rfl, rfl, rfl⟩
  | some memory =>
    simp only [addTracked, addObserved] at h
    split at h
    · cases h
    split at h
    · cases h
    next other hother =>
    split at h
    · cases h
    split at h
    · cases h
    next fixed hfixed =>
    split at h
    · cases h
    next extra hextra =>
    split at h
    next hcurrent htarget hpeak =>
      cases h
      have hsum := sum_of_sumChecked hextra
      have hreserved := sum_of_sumChecked hother
      have hfixedSum := sum_of_sumChecked hfixed
      simp only [sum_cons, sum_nil] at hsum hfixedSum
      have hbytes : extra = observedBytes current tally.graph (some memory) := by
        simp only [observedBytes]
        omega
      rw [← hbytes]
      exact ⟨rfl, rfl, add_of_addChecked hcurrent, add_of_addChecked htarget,
        add_of_addChecked hpeak⟩
    · cases h

def scratchBytes : Option KvPreparation → Nat
  | none => 0
  | some receipt => receipt.hostMetadataBytes + receipt.hostStagingBytes

theorem addNative_spec {extraCurrent extraTarget}
    (hnone : native = none → extraCurrent = 0 ∧ extraTarget = 0)
    (h : addNative native extraCurrent extraTarget tally report = .ok out) :
    out.1.usable = tally.usable ∧
    out.1.target = tally.target + extraTarget ∧
    out.1.peak = tally.peak + extraCurrent +
      (if report.preparesKv then extraTarget + scratchBytes native else 0) ∧
    (report.preparesKv = false → extraCurrent = extraTarget) := by
  cases native with
  | none =>
    obtain ⟨rfl, rfl⟩ := hnone rfl
    cases h
    refine ⟨rfl, rfl, ?_, fun _ => rfl⟩
    simp [scratchBytes]
  | some rows =>
    simp only [addNative, addReceipt] at h
    split at h
    next current target peak hcurrent htarget hpeak =>
      have h2 := add_of_addChecked htarget
      have h3 := add_of_addChecked hpeak
      split at h
      next hprepares =>
        split at h
        · cases h
        next total htotal =>
        cases h
        have h4 := sum_of_sumChecked htotal
        simp only [sum_cons, sum_nil] at h4
        refine ⟨rfl, h2, ?_, fun hfalse => absurd hprepares (by simp [hfalse])⟩
        rw [if_pos hprepares]
        simp only [scratchBytes]
        omega
      next hprepares =>
      split at h
      · cases h
      next hsame =>
      cases h
      refine ⟨rfl, h2, ?_, fun _ => by omega⟩
      rw [if_neg hprepares]
      exact h3
    · cases h

theorem closeRam_spec {capacity out} (h : closeRam capacity tally report = .ok out) :
    tally.target ≤ tally.usable ∧ tally.peak ≤ tally.usable := by
  unfold closeRam at h
  split at h
  · cases h
  next hlive =>
  split at h
  · cases h
  next hpeak =>
  omega

/-! ## The whole check -/

def hostGraph (plan : Plan) : Nat :=
  (plan.devices.map fun row => hostPart row.id row.graphBytes 0).sum

/-- The realized plan has the KV bytes of the receipt in its rows, and beside them those of a host
that has no row. -/
def Carries (rows : List KvRow) (plan : Plan) (realized : Plan × Nat) : Prop :=
  realized.1.devices.map (fun row => (row.id, row.kvBytes)) =
      plan.devices.map (fun row => (row.id, kvBytesOf rows row.id)) ∧
    realized.2 = if plan.devices.all (·.id ≠ -1) then kvBytesOf rows (-1) else 0

theorem realizeDevice_carries {rows device out} (h : realizeDevice rows device = .ok out) :
    out.id = device.id ∧ out.kvBytes = kvBytesOf rows device.id := by
  unfold realizeDevice at h
  split at h
  · cases h
  split at h
  · cases h
  dsimp only at h
  split at h
  · cases h
  · cases h
    exact ⟨rfl, rfl⟩

theorem realizeDevices_carries {rows seen out} {rest : List DevicePlan}
    (h : realizeDevices rows seen rest = .ok out) :
    out.map (fun row => (row.id, row.kvBytes)) =
      rest.map (fun row => (row.id, kvBytesOf rows row.id)) := by
  induction rest generalizing seen out with
  | nil =>
    cases h
    rfl
  | cons device rest ih =>
    rw [realizeDevices] at h
    split at h
    · cases h
    obtain ⟨realized, hrealized, h⟩ := except_bind_eq_ok.mp h
    obtain ⟨tail, htail, rfl⟩ := except_map_eq_ok.mp h
    obtain ⟨hid, hkv⟩ := realizeDevice_carries hrealized
    rw [map_cons, map_cons, ih htail, hid, hkv]

/-- The first row of a device is the first one left where only rows of other devices are dropped. -/
theorem kvBytesOf_filter {p : KvRow → Bool} (rows : List KvRow) (id : Int)
    (hkeep : ∀ row : KvRow, row.deviceId = id → p row = true) :
    kvBytesOf (rows.filter p) id = kvBytesOf rows id := by
  unfold kvBytesOf
  rw [find?_filter]
  congr 3
  funext row
  by_cases hrow : row.deviceId = id
  · simp [hrow, hkeep row hrow]
  · simp [hrow]

theorem realize_carries {rows plan out} (h : realize plan rows = .ok out) :
    Carries rows plan out := by
  unfold realize at h
  split at h
  · cases h
  obtain ⟨devices, hdevices, h⟩ := except_bind_eq_ok.mp h
  have hmap := realizeDevices_carries hdevices
  dsimp only at h
  split at h
  · cases h
  cases h
  refine ⟨hmap, ?_⟩
  have hall (id : Int) : devices.all (·.id ≠ id) = plan.devices.all (·.id ≠ id) := by
    have h := congrArg (fun rows => rows.all fun row => decide (row.1 ≠ id)) hmap
    rw [all_map, all_map] at h
    exact h
  dsimp only
  split
  next habsent =>
    exact kvBytesOf_filter _ _ fun row hrow => by rw [hrow, hall, habsent]
  next hpresent =>
    rw [kvBytesOf, find?_eq_none.mpr fun row hrow => ?_]
    · rfl
    · intro hid
      obtain ⟨-, hunplaced⟩ := mem_filter.mp hrow
      rw [hall, of_decide_eq_true hid] at hunplaced
      exact hpresent hunplaced

theorem realizeBoth_carries {rows current target realized}
    (h : realizeBoth (some rows) current target = .ok realized) :
    Carries rows.current current realized.1 ∧ Carries rows.target target realized.2 := by
  obtain ⟨before, hbefore, h⟩ := except_bind_eq_ok.mp h
  obtain ⟨after, hafter, rfl⟩ := except_map_eq_ok.mp h
  exact ⟨realize_carries hbefore, realize_carries hafter⟩

/-- The transition that a check describes, from its realized plans. -/
def changeOf (forceExpertCache forceTransient : Bool) (tracked : Option HostMemory)
    (native : Option KvPreparation) (realized : (Plan × Nat) × (Plan × Nat)) : Change :=
  { current := realized.1.1
    target := realized.2.1
    forceExpertCache := forceExpertCache
    forceTransient := forceTransient
    observed := observedBytes realized.1.1 (hostGraph realized.1.1) tracked
    hostKv := realized.1.2
    nextHostKv := realized.2.2
    scratch := scratchBytes native }

theorem sum_zip_le {f} (hle : ∀ pair device, R pair device → f pair ≤ g (device, pair.1))
    (h : List.Forall₂ R pairs devices) :
    (pairs.map f).sum ≤ ((devices.zip (pairs.map Prod.fst)).map g).sum := by
  induction h with
  | nil => exact Nat.le_refl _
  | cons hhead _ ih =>
    simp only [map_cons, zip_cons_cons, sum_cons]
    exact Nat.add_le_add (hle _ _ hhead) ih

theorem map_zip_eq {f} (heq : ∀ pair device, R pair device → g (device, pair.1) = f pair.1)
    (h : List.Forall₂ R pairs devices) :
    (devices.zip (pairs.map Prod.fst)).map g = (pairs.map Prod.fst).map f := by
  induction h with
  | nil => rfl
  | cons hhead _ ih =>
    simp only [map_cons, zip_cons_cons]
    rw [heq _ _ hhead, ih]

theorem foldl_zip_eq {f g}
    (heq : ∀ start pair device, R pair device → f start (device, pair.1) = g start pair.1)
    (h : List.Forall₂ R pairs devices) (start : Nat) :
    (devices.zip (pairs.map Prod.fst)).foldl f start = (pairs.map Prod.fst).foldl g start := by
  induction h generalizing start with
  | nil => rfl
  | cons hhead _ ih =>
    simp only [map_cons, zip_cons_cons, foldl_cons]
    rw [heq start _ _ hhead]
    exact ih _

/-- The rows of an accepted check, with the report's devices. -/
structure AcceptedRows (c : Change) (additional : Nat) (devices : List DevicePeak) : Prop where
  length_eq : c.current.devices.length = c.target.devices.length
  planned : c.current.ramPlannedBytes = c.target.ramPlannedBytes
  fixed : ∀ pair ∈ pairedRows c.current c.target, SameFixed pair.1 pair.2
  peak : transientAdditionalPeak c.forceTransient c.current c.target = .ok additional
  rows : List.Forall₂ (fun pair device => pair ∈ pairedRows c.current c.target ∧
    Accepted (c.preparing additional) pair.1 pair.2 device) (pairedRows c.current c.target) devices

theorem AcceptedRows.fst_rows (h : AcceptedRows c additional devices) :
    (pairedRows c.current c.target).map Prod.fst = c.current.devices :=
  map_fst_zip (Nat.le_of_eq h.length_eq)

/-- **At every point of the transition each device keeps its reserve.** -/
theorem AcceptedRows.device_fits (h : AcceptedRows c additional devices) (hp : p.Valid c)
    (hpair : pair ∈ pairedRows c.current c.target) :
    pair.1.reserveBytes + c.deviceLive p pair.1 pair.2 ≤ pair.1.capacityBytes := by
  obtain ⟨device, -, -, haccepted⟩ := exists_of_forall₂_right h.rows.flip hpair
  have hreserve := haccepted.reserve
  have husable : pair.1.usable = pair.1.capacityBytes - pair.1.reserveBytes := rfl
  by_cases hstage : p.owner = .reserved
  · have hlive := c.deviceLive_reserved hpair hp hstage (h.fixed pair hpair)
    have := haccepted.target_fits
    omega
  · have hlive := c.deviceLive_le_peak h.peak hp hstage haccepted
    have := haccepted.fits
    omega

theorem AcceptedRows.host_rows_le (h : AcceptedRows c additional devices) (hp : p.Valid c) :
    ((pairedRows c.current c.target).map fun pair =>
      if pair.1.id < 0 then c.deviceLive p pair.1 pair.2 - pair.1.denseBytes else 0).sum ≤
    ((devices.zip c.current.devices).map fun row => hostPart row.1.id
      (if p.owner = .reserved then row.1.targetLiveBytes else row.1.peakBytes)
      row.2.denseBytes).sum := by
  rw [← h.fst_rows]
  refine sum_zip_le (fun pair device hrow => ?_) h.rows
  obtain ⟨hpair, haccepted⟩ := hrow
  dsimp only
  rw [hostPart, haccepted.id_eq]
  split
  · by_cases hstage : p.owner = .reserved
    · rw [if_pos hstage, haccepted.targetLive,
        c.deviceLive_reserved hpair hp hstage (h.fixed pair hpair)]
    · have hlive := c.deviceLive_le_peak h.peak hp hstage haccepted
      rw [if_neg hstage]
      omega
  · exact Nat.le_refl _

theorem AcceptedRows.usable_eq (h : AcceptedRows c additional devices) :
    (devices.zip c.current.devices).foldl (fun usable row => if row.1.id < 0 then
      min usable (row.1.capacityBytes - row.1.reserveBytes) else usable)
      (if c.current.ramCapacityBytes ≠ 0 then c.current.ramCapacityBytes else u64Max) =
      c.usableRam := by
  unfold Change.usableRam
  conv_lhs => rw [← h.fst_rows]
  conv_rhs => rw [← h.fst_rows]
  refine foldl_zip_eq (fun start pair device hrow => ?_) h.rows _
  dsimp only
  rw [hrow.2.id_eq, hrow.2.usable]

theorem AcceptedRows.graph_eq (h : AcceptedRows c additional devices) :
    ((devices.zip c.current.devices).map fun row => hostPart row.1.id row.2.graphBytes 0).sum =
      hostGraph c.current := by
  have hmap := map_zip_eq (g := fun row => hostPart row.1.id row.2.graphBytes 0)
    (f := fun row => hostPart row.id row.graphBytes 0)
    (fun pair device hrow => by dsimp only; rw [hrow.2.id_eq]) h.rows
  rw [h.fst_rows] at hmap
  rw [hmap]
  rfl

/-- **At every point of the transition the host keeps to its RAM.** -/
theorem AcceptedRows.host_fits (h : AcceptedRows c additional devices) {out}
    (hdevices : report.devices = devices) (hkv : report.preparesKv = c.preparesKv)
    (hobserved : c.observed = observedBytes c.current (hostGraph c.current) tracked)
    (hscratch : c.scratch = scratchBytes native)
    (hnone : native = none → c.hostKv = 0 ∧ c.nextHostKv = 0)
    (hbudget : ¬ (c.current.ramCapacityBytes = 0 ∧ tracked = none ∧ native = none))
    (hram : ramPeak c.current c.target tracked native c.hostKv c.nextHostKv report = .ok out)
    (hp : p.Valid c) : c.hostLive p ≤ c.usableRam := by
  unfold ramPeak at hram
  rw [if_neg hbudget] at hram
  obtain ⟨tally, htally, hram⟩ := except_bind_eq_ok.mp hram
  obtain ⟨observed, hobs, hram⟩ := except_bind_eq_ok.mp hram
  obtain ⟨closed, hclosed, hram⟩ := except_bind_eq_ok.mp hram
  rw [hdevices] at htally
  obtain ⟨-, htTarget, htPeak, htGraph, htUsable⟩ := tallyHost_spec htally
  obtain ⟨hoUsable, hoKv, -, hoTarget, hoPeak⟩ := addTracked_spec hobs
  obtain ⟨hcUsable, hcTarget, hcPeak, hcSame⟩ := addNative_spec hnone hclosed
  obtain ⟨hfitsTarget, hfitsPeak⟩ := closeRam_spec hram
  have hextra : observedBytes c.current tally.graph tracked = c.observed := by
    rw [hobserved, htGraph, h.graph_eq, Nat.zero_add]
  have husable : closed.1.usable = c.usableRam := by
    rw [hcUsable, hoUsable, htUsable]
    exact h.usable_eq
  have hrows := h.host_rows_le hp
  have hplanned := h.planned
  rw [hextra] at hoTarget hoPeak
  rw [hoKv, hkv] at hcPeak hcSame
  dsimp only at htTarget htPeak
  have hhost :
      c.hostKvLive p ≤ c.hostKv + if c.preparesKv then c.nextHostKv + c.scratch else 0 := by
    unfold Change.hostKvLive
    split
    · exact Nat.le_add_right _ _
    next hboth =>
      rw [if_pos (hp.kv (by rw [hboth]; exact PoolStage.noConfusion))]
      omega
    next hreplaced =>
      rw [if_pos (hp.kv (by rw [hreplaced]; exact PoolStage.noConfusion))]
      omega
  unfold Change.hostLive
  by_cases hstage : p.owner = .reserved
  · -- the target plan is in force: its KV pool is the only one
    simp only [if_pos hstage] at hrows
    have hfinal : c.hostKvLive p = c.nextHostKv := by
      have hstages := (hp.reserved hstage).1
      unfold Change.hostKvLive
      cases hprepares : c.preparesKv with
      | true =>
        rw [hprepares] at hstages
        rw [hstages]
        rfl
      | false =>
        rw [hprepares] at hstages
        rw [hstages]
        exact hcSame hprepares
    omega
  · simp only [if_neg hstage] at hrows
    rw [← hscratch] at hcPeak
    omega

theorem realizedPeak_spec {out}
    (h : realizedPeak c.forceExpertCache c.forceTransient tracked native c.current c.target
      c.hostKv c.nextHostKv = .ok out) :
    ∃ additional devices report, AcceptedRows c additional devices ∧
      report.devices = devices ∧ report.preparesKv = c.preparesKv ∧
      ramPeak c.current c.target tracked native c.hostKv c.nextHostKv report = .ok out := by
  unfold realizedPeak at h
  obtain ⟨_, hplans, h⟩ := except_bind_eq_ok.mp h
  obtain ⟨_, hrows, h⟩ := except_bind_eq_ok.mp h
  obtain ⟨additional, hpeak, h⟩ := except_bind_eq_ok.mp h
  obtain ⟨devices, hdevices, h⟩ := except_bind_eq_ok.mp h
  have hsame : c.current.devices.length = c.target.devices.length ∧
      c.current.ramPlannedBytes = c.target.ramPlannedBytes := by
    unfold checkPlans at hplans
    split at hplans
    · cases hplans
    next htopology =>
    split at hplans
    · cases hplans
    next hram =>
    simp only [not_or, not_not] at htopology hram
    exact ⟨htopology.2, hram.2.1⟩
  refine ⟨additional, devices, _, ⟨hsame.1, hsame.2, checkRows_spec hrows, hpeak, ?_⟩, rfl, rfl, h⟩
  refine List.Forall₂.imp (fun pair device hrow => ?_) ((forall₂_and_left _ _).mpr
    ⟨fun pair hpair => hpair, forall₂_of_mapM_eq_ok hdevices⟩)
  exact ⟨hrow.1, devicePeak_spec hrow.2⟩

/-- **What the check accepts fits at every point of the transition**, on every device
and in host memory; and a rejected check leaves the report as it was. -/
theorem accepted_preparations_fit (current target : Plan) (report : PreparationPeak)
    (forceExpertCache forceTransient : Bool) (tracked : Option HostMemory)
    (native : Option KvPreparation) :
    ((rebalancePreparationPeak current target report forceExpertCache forceTransient tracked
        native).1 = false →
      (rebalancePreparationPeak current target report forceExpertCache forceTransient tracked
        native).2.1 = report) ∧
    ((rebalancePreparationPeak current target report forceExpertCache forceTransient tracked
        native).1 = true →
      ∃ realized, realizeBoth native current target = .ok realized ∧
        (∀ rows, native = some rows →
          Carries rows.current current realized.1 ∧ Carries rows.target target realized.2) ∧
        realized.1.1.devices.length = realized.2.1.devices.length ∧
        ∀ p, (changeOf forceExpertCache forceTransient tracked native realized).Reaches p →
          (∀ pair ∈ pairedRows realized.1.1 realized.2.1, pair.1.reserveBytes +
            (changeOf forceExpertCache forceTransient tracked native realized).deviceLive p
              pair.1 pair.2 ≤ pair.1.capacityBytes) ∧
          (realized.1.1.ramCapacityBytes ≠ 0 ∨ tracked ≠ none ∨ native ≠ none →
            (changeOf forceExpertCache forceTransient tracked native realized).hostLive p ≤
              (changeOf forceExpertCache forceTransient tracked native realized).usableRam)) := by
  unfold rebalancePreparationPeak
  cases hpeak : preparationPeak forceExpertCache forceTransient tracked native current target with
  | error message => exact ⟨fun _ => rfl, fun htrue => Bool.noConfusion htrue⟩
  | ok out =>
    refine ⟨fun hfalse => Bool.noConfusion hfalse, fun _ => ?_⟩
    obtain ⟨realized, hrealized, haccepted⟩ := except_bind_eq_ok.mp hpeak
    obtain ⟨additional, devices, seen, hrows, hdevices, hkv, hram⟩ := realizedPeak_spec
      (c := changeOf forceExpertCache forceTransient tracked native realized) haccepted
    refine ⟨realized, hrealized, fun rows hnative => realizeBoth_carries (hnative ▸ hrealized),
      hrows.length_eq, fun p hp => ?_⟩
    have hvalid := Point.valid_of_reaches hp
    refine ⟨fun pair hpair => hrows.device_fits hvalid hpair, fun hbudget => ?_⟩
    refine hrows.host_fits hdevices hkv rfl rfl (fun hnone => ?_) (by tauto) hram hvalid
    rw [hnone] at hrealized
    cases hrealized
    exact ⟨rfl, rfl⟩

/-- A running plan with both modules configured and none of them enabled. -/
def runningPlan : Plan :=
  { context := 8
    slots := 2
    ramCapacityBytes := 60
    ramPlannedBytes := 20
    transientDevice := 0
    transientMtpBytes := 6
    transientMultimodalBytes := 9
    devices :=
      [{ id := 0, capacityBytes := 100, reserveBytes := 10, denseBytes := 20, kvBytes := 12,
         expertCacheBytes := 5, plannedBytes := 37 },
       { id := -1, capacityBytes := 50, kvBytes := 4, plannedBytes := 4 }] }

def nextPlan : Plan :=
  { runningPlan with
    context := 16
    transientPolicy := .shared
    transientCapacityBytes := 9
    devices :=
      [{ id := 0, capacityBytes := 100, reserveBytes := 10, denseBytes := 20, kvBytes := 24,
         expertCacheBytes := 5, transientBytes := 9, plannedBytes := 58 },
       { id := -1, capacityBytes := 50, kvBytes := 8, plannedBytes := 8 }] }

/-- With both KV pools and the first module loaded, the accelerator holds 67 of its 90 bytes. -/
theorem runningPlan_fits :
    (rebalancePreparationPeak runningPlan nextPlan {} false false none none).1 = true ∧
    ∃ realized, realizeBoth none runningPlan nextPlan = .ok realized ∧
      (changeOf false false none none realized).Reaches
        { kv := .both, owner := .both .nobody .mtp } ∧
      ∀ p, (changeOf false false none none realized).Reaches p →
        ∀ pair ∈ pairedRows runningPlan nextPlan, pair.1.reserveBytes +
          (changeOf false false none none realized).deviceLive p pair.1 pair.2 ≤
            pair.1.capacityBytes := by
  have haccepted : (rebalancePreparationPeak runningPlan nextPlan {} false false none none).1 =
      true := by decide +kernel
  obtain ⟨realized, hrealized, -, -, hfits⟩ :=
    (accepted_preparations_fit runningPlan nextPlan {} false false none none).2 haccepted
  obtain rfl : ((runningPlan, 0), (nextPlan, 0)) = realized := Except.ok.inj hrealized
  refine ⟨haccepted, _, rfl, ?_, fun p hp => (hfits p hp).1⟩
  refine (Relation.ReflTransGen.single (Change.Step.prepareKv (by decide) rfl)).tail ?_
  exact Change.Step.prepareOwner (by decide) (show TransientOwner.nobody ∈ _ by decide) rfl

end ExpertStreaming.Planner
