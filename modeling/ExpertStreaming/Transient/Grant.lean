import ExpertStreaming.Transient.Consistency

/-! # What an idle manager grants

Without leases, an epoch or a policy transaction every resident module can make room.
A request for enabled modules that fit their devices together is then granted as soon
as the callbacks agree.
-/
namespace ExpertStreaming.Transient

open Lib Planner Manager

/-- A request for enabled modules that fit their devices together. -/
structure Grantable (s : Manager) (requested : List String) : Prop where
  total : s.totalBytes ≤ u64Max
  enabled : ∀ id ∈ requested, ∃ m, s.modules.find? id = some m ∧ m.enabled = true
  exact_callbacks : ∀ id m, s.modules.find? id = some m → m.desc.exactCallbacks = true
  room : ∀ device, (s.modules.sumBy fun id m =>
    if id ∈ requested ∧ m.desc.device = device then m.desc.bytes else 0) ≤ s.usableBytes device

variable {s : Manager} {requested : List String} {ids : OrdMap String Unit}

theorem collect_ok (h : ∀ id ∈ requested, ∃ m, s.modules.find? id = some m ∧ m.enabled = true)
    (acc : Manager.Request) : ∃ r, s.collect requested acc = .ok r ∧
      ∀ id, r.ids.contains id = true ↔ acc.ids.contains id = true ∨ id ∈ requested := by
  induction requested generalizing acc with
  | nil => exact ⟨acc, rfl, fun id => by simp⟩
  | cons id rest ih =>
    obtain ⟨m, hm, henabled⟩ := h id (by simp)
    have hone : ∃ mid, s.collectOne acc id = .ok mid ∧
        ∀ id', mid.ids.contains id' = true ↔ acc.ids.contains id' = true ∨ id' = id := by
      simp only [collectOne, hm, henabled, Bool.true_eq_false, if_false]
      split
      next hin =>
        refine ⟨acc, rfl, fun id' => ⟨.inl, ?_⟩⟩
        rintro (hin' | rfl)
        · exact hin'
        · exact hin
      · refine ⟨_, rfl, fun id' => ?_⟩
        rw [contains_insert]
        simp [or_comm]
    obtain ⟨mid, hmid, hmem⟩ := hone
    obtain ⟨r, hr, hmem'⟩ := ih (fun id' hid' => h id' (List.mem_cons_of_mem _ hid')) mid
    refine ⟨r, ?_, fun id' => ?_⟩
    · rw [collect, hmid]
      exact hr
    · rw [hmem', hmem, List.mem_cons, or_assoc]

theorem evictUntil_fits (s : Manager) (usable need projected : Nat) (ids : List String) :
    u64Add (s.evictUntil usable need projected ids).1 need ≤ usable ∨
      (s.evictUntil usable need projected ids).2 = ids := by
  induction ids generalizing projected with
  | nil => exact .inr rfl
  | cons id rest ih =>
    rw [evictUntil]
    split
    next hfits => exact .inl hfits
    · rcases ih (u64Sub projected (s.bytesOf id)) with hfits | hall
      · exact .inl hfits
      · exact .inr (congrArg (id :: ·) hall)

theorem mem_candidates_of {device id m} (hm : s.modules.find? id = some m)
    (hresident : m.resident = true) (hpins : m.pins = 0) (hdevice : m.desc.device = device)
    (hnot : ids.contains id = false) :
    id ∈ s.candidates ids device := by
  refine List.mem_map.mpr ⟨(id, m), (List.mem_insertionSort _).mpr (List.mem_filter.mpr
    ⟨OrdMap.find?_eq_some.mp hm, ?_⟩), rfl⟩
  simp [hresident, hpins, hdevice, hnot]

theorem evictDevice_ok {device need} (hpins : ∀ id m, s.modules.find? id = some m → m.pins = 0)
    (htotal : s.core.totalBytes ≤ u64Max)
    (hroom : s.core.weight (fun id m => residentOn device id m && ids.contains id) + need ≤
      s.usableBytes device) : ∃ evicted, s.evictDevice ids device need = .ok evicted := by
  unfold evictDevice
  rw [if_neg (by omega)]
  dsimp only
  rw [if_neg]
  · exact ⟨_, rfl⟩
  have hspec := (evictUntil_spec s (s.usableBytes device) need (s.residentBytesLocked device)
    (s.candidates ids device)).2
  rcases evictUntil_fits s (s.usableBytes device) need (s.residentBytesLocked device)
    (s.candidates ids device) with hfits | hall
  · exact Nat.not_lt.mpr hfits
  -- all candidates are taken, and what stays was requested
  rw [hall] at hspec
  generalize (s.evictUntil (s.usableBytes device) need (s.residentBytesLocked device)
    (s.candidates ids device)).1 = left at hspec
  have hlocked : s.residentBytesLocked device = s.core.weight (residentOn device) := by
    rw [residentBytesLocked_eq htotal, Core.residentBytes_view]
  have hcandidates := weight_candidates (fun _ hid => hid) (nodup_candidates s ids device)
  have hsplit := s.core.weight_split (residentOn device)
    fun id _ => decide (id ∈ s.candidates ids device)
  have hstays : s.core.weight (fun id m => residentOn device id m &&
      !decide (id ∈ s.candidates ids device)) ≤
      s.core.weight fun id m => residentOn device id m && ids.contains id := by
    apply Core.weight_le_of_imp
    intro id m hm hid
    obtain ⟨entry, hentry, rfl⟩ := find?_of_core hm
    simp only [Bool.and_eq_true, Bool.not_eq_true', decide_eq_false_iff_not] at hid ⊢
    refine ⟨hid.1, ?_⟩
    by_contra hnot
    obtain ⟨⟨hresident, hdevice⟩, hstays⟩ := hid
    exact hstays (mem_candidates_of hentry hresident (hpins id entry hentry)
      (of_decide_eq_true hdevice) (Bool.not_eq_true _ ▸ hnot))
  have hleft := hspec (by omega)
  have hsum : u64Add left need ≤ left + need := Nat.mod_le _ _
  omega

theorem evictAll_ok {needed : List (Int × Nat)}
    (h : ∀ p ∈ needed, ∃ evicted, s.evictDevice ids p.1 p.2 = .ok evicted) :
    ∃ evicted, s.evictAll ids needed = .ok evicted := by
  induction needed with
  | nil => exact ⟨[], rfl⟩
  | cons entry rest ih =>
    obtain ⟨here, hhere⟩ := h entry (by simp)
    obtain ⟨later, hlater⟩ := ih fun p hp => h p (List.mem_cons_of_mem _ hp)
    refine ⟨here ++ later, ?_⟩
    rw [evictAll, hhere]
    exact (congrArg (Except.map (here ++ ·)) hlater)

theorem admitRequest_ok (h : Grantable s requested)
    (hpins : ∀ id m, s.modules.find? id = some m → m.pins = 0) (hepoch : s.epoch = none)
    (hclosed : s.transaction = none) : ∃ a, s.admitRequest requested = .ok a := by
  obtain ⟨r, hr, hmem⟩ := collect_ok h.enabled {}
  have htotal : s.core.totalBytes ≤ u64Max := totalBytes_core s ▸ h.total
  have hneeded := (collect_collected hr (collected_empty s.core)).needed htotal
  obtain ⟨evicted, hevicted⟩ : ∃ evicted, s.evictAll r.ids r.needed.toList = .ok evicted := by
    refine evictAll_ok fun p hp => evictDevice_ok hpins htotal ?_
    have hneed : p.2 = _ := (by rw [OrdMap.find?_eq_some.mpr hp]; rfl :
      p.2 = (r.needed.find? p.1).getD 0).trans (hneeded p.1)
    -- the requested modules of the device, resident or not
    have hall : s.core.weight (fun id m => r.ids.contains id && decide (m.desc.device = p.1)) ≤
        s.usableBytes p.1 := by
      refine Nat.le_trans (Nat.le_of_eq ?_) (h.room p.1)
      unfold Core.weight core
      rw [OrdMap.sumBy_mapWithKey]
      apply OrdMap.sumBy_congr
      intro id m _
      have hid : r.ids.contains id = true ↔ id ∈ requested := by
        rw [hmem]
        simp [OrdMap.contains]
      simp only [Bool.and_eq_true, decide_eq_true_eq, hid]
      rfl
    have hsplit := s.core.weight_split
      (fun id m => r.ids.contains id && decide (m.desc.device = p.1)) fun _ m => m.resident
    have hresident : s.core.weight (fun id m => residentOn p.1 id m && r.ids.contains id) =
        s.core.weight fun id m => (r.ids.contains id && decide (m.desc.device = p.1)) &&
          m.resident := by
      apply Core.weight_congr
      intro id m _
      simp only [residentOn]
      cases m.resident <;> cases r.ids.contains id <;> simp
    have habsent : s.core.weight (fun id m => r.ids.contains id && !m.resident &&
        decide (m.desc.device = p.1)) = s.core.weight fun id m =>
          (r.ids.contains id && decide (m.desc.device = p.1)) && !m.resident := by
      apply Core.weight_congr
      intro id m _
      cases m.resident <;> cases r.ids.contains id <;> simp
    omega
  refine ⟨⟨r.ids.keys, evicted, r.ids.keys.filter fun id => ¬ s.isResident id, false⟩, ?_⟩
  unfold admitRequest
  rw [hclosed, hr]
  dsimp only [Option.isSome_none]
  rw [hevicted, hepoch]
  rfl

theorem prepareOwners_ok {ids : List String} (target : Bool)
    (h : ∀ id ∈ ids, ∃ m, s.modules.find? id = some m ∧ m.desc.exactCallbacks = true)
    (next : Owner) : ∃ out, s.prepareOwners {} target ids next = .ok out := by
  induction ids generalizing next with
  | nil => exact ⟨_, rfl⟩
  | cons id rest ih =>
    obtain ⟨m, hm, hexact⟩ := h id (by simp)
    obtain ⟨out, hout⟩ := ih (fun id' hid' => h id' (List.mem_cons_of_mem _ hid')) (next + 1)
    simp only [prepareOwners, hm, hexact, hout]
    exact ⟨_, rfl⟩

theorem publishOwners_ok (ts : List ResidencyTransition) (live : String → Option Owner) :
    ∃ live' ts', Manager.publishOwners {} live ts = .published live' ts' := by
  induction ts generalizing live with
  | nil => exact ⟨_, _, rfl⟩
  | cons t rest ih =>
    obtain ⟨live', ts', hrest⟩ := ih (t.handle.publish live t.id).1
    simp only [publishOwners, hrest]
    exact ⟨_, _, rfl⟩

theorem grantEpoch_ok {owners} (h : owners.published = false) (s : Manager) (a : Manager.Admission)
    (restorePrior : Bool) (k : Nat) :
    ∃ s', s.grantEpoch {} a restorePrior owners k = some (s', .lease k) := by
  have hpublished : ∀ u : Manager, ∃ u' owners', u.publishResidency {} owners =
      some (u', .ok owners') := by
    intro u
    obtain ⟨live, ts, hlive⟩ := publishOwners_ok owners.modules u.live
    simp only [publishResidency, h, hlive]
    exact ⟨_, _, rfl⟩
  unfold grantEpoch
  dsimp only
  obtain ⟨u', owners', hu'⟩ := hpublished { s with
    leases := s.leases.insert k
      { requested := a.ids, restorePrior := restorePrior, epoch := some s.nextSerial }
    nextSerial := s.nextSerial + 1 }
  rw [hu']
  exact ⟨_, rfl⟩

/-- **An idle manager grants every request that fits**, if the callbacks agree. -/
theorem acquire_granted (hinv : Inv s.core)
    (hidle : s.leases.isEmpty = true) (hepoch : s.epoch = none) (hclosed : s.transaction = none)
    (h : Grantable s requested) (restorePrior : Bool) :
    ∃ s' k, s.acquire {} requested restorePrior = some (s', .lease k) := by
  have hpins : ∀ id m, s.modules.find? id = some m → m.pins = 0 := by
    intro id m hm
    have hcount : m.pins = s.core.requests id := hinv.pins id m.held (core_find? hm)
    rw [hcount]
    refine OrdMap.sumBy_eq_zero fun k l hl => ?_
    have hl : s.leases.find? k = some l := hl
    rw [OrdMap.isEmpty_iff.mp hidle k] at hl
    cases hl
  have hcounted : Grantable s.countTransaction requested :=
    ⟨h.total, h.enabled, h.exact_callbacks, h.room⟩
  obtain ⟨a, ha⟩ := admitRequest_ok hcounted hpins hepoch hclosed
  have hadmitted := (admit_spec ha).admitted
  have hquiesced : firstFailing (fun _ => true) (a.evicted ++ a.activated) = none := by
    simp [firstFailing]
  have hsize : s.leases.size + 2 ≤ 2 ^ 64 := by
    have hempty : s.leases.size = 0 := by
      rw [OrdMap.size, List.isEmpty_iff.mp hidle]
      rfl
    omega
  unfold acquire
  dsimp only
  rw [ha]
  dsimp only
  rw [hquiesced]
  dsimp only
  split
  · obtain ⟨k, hk⟩ := Option.isSome_iff_exists.mp
      (freshLeaseId_isSome (s := s.countTransaction) hsize)
    rw [hk]
    exact ⟨_, k, rfl⟩
  · obtain ⟨owners, next, hprepared⟩ : ∃ owners next, s.countTransaction.prepareResidency {}
        a.evicted a.activated = .ok (owners, next) := by
      have hknown : ∀ {id : String} {m : Held}, s.core.modules.find? id = some m →
          ∃ m', s.modules.find? id = some m' ∧ m'.desc.exactCallbacks = true := by
        intro id m hm
        obtain ⟨m', hm', -⟩ := find?_of_core hm
        exact ⟨m', hm', h.exact_callbacks id m' hm'⟩
      obtain ⟨leaving, hleaving⟩ := prepareOwners_ok (s := s.countTransaction) false
        (fun id hid => by
          obtain ⟨-, m, hm, -⟩ := hadmitted.evictable id hid
          exact hknown hm) s.countTransaction.nextOwner
      obtain ⟨loading, hloading⟩ := prepareOwners_ok (s := s.countTransaction) true
        (fun id hid => by
          obtain ⟨-, m, hm, -⟩ := (hadmitted.mem_activated id).mp hid
          exact hknown hm) leaving.2
      refine ⟨⟨leaving.1 ++ loading.1, false⟩, loading.2, ?_⟩
      unfold prepareResidency
      rw [hleaving]
      exact congrArg (Except.map _) hloading
    rw [hprepared]
    dsimp only
    obtain ⟨k, hk⟩ := Option.isSome_iff_exists.mp
      (freshLeaseId_isSome (s := { s.countTransaction with nextOwner := next }) hsize)
    rw [hk]
    obtain ⟨s', hgranted⟩ := grantEpoch_ok (prepareResidency_spec hprepared).unpublished
      (afterLeaseId { s.countTransaction with nextOwner := next } k) a restorePrior k
    exact ⟨s', k, hgranted⟩

end ExpertStreaming.Transient
