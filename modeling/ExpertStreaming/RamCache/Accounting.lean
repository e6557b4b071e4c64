import ExpertStreaming.RamCache.Leases

/-! # The RAM expert cache: placement and byte counts

The placement half of the invariant read at the level of the maps the source
keeps, and the bounds that follow: regions that do not overlap inside a range of
`capacity_bytes` addresses cannot total more than that, so no counter exceeds its
capacity, and a counter that is the sum of what it counts never goes below a term.
-/
namespace ExpertStreaming.RamCache
open Lib

variable {p : Params} {s : State}

theorem Layout.entry_ne (hl : Layout p s) {k k' e f} (he : s.entries.find? k = some e)
    (hf : s.entries.find? k' = some f) (hne : k ≠ k') :
    e ≠ f := by
  rintro rfl
  exact hne ((hl.entry_key k e he).symm.trans (hl.entry_key k' e hf))

theorem Layout.load_ne (hl : Layout p s) {k k' l m} (h : s.pending.find? k = some l)
    (h' : s.pending.find? k' = some m) (hne : k ≠ k') :
    l ≠ m := by
  rintro rfl
  exact hne ((hl.load_key k l h).symm.trans (hl.load_key k' l h'))

theorem Layout.claim_apart_entry (hl : Layout p s) {l e} (hp : s.Pending p l) (he : s.Resident p e)
    (hv : e ∉ (s.loads l).victims) (hne : e ≠ (s.loads l).result) :
    (s.claim p l).Apart (s.region p e) := by
  rw [hl.result] at hne
  rcases hl.claim_clear l e hp he hne with hmark | hap
  · exact absurd (hl.reserved e l he hmark).2.2 hv
  · exact hap

/-! ## Bounds -/

theorem Inv.resident_le (hi : Inv p s) : s.stats.residentBytes ≤ p.config.capacityBytes := by
  rw [hi.counters.resident]
  exact Region.sumBy_len_le s.entries (fun e => (s.heap e).ready) (s.region p)
    (fun k e k' f he hf hne => hi.layout.entry_apart e f (hi.layout.resident_of_find he)
      (hi.layout.resident_of_find hf) (hi.layout.entry_ne he hf hne))
    (fun k e he => hi.layout.entry_in e (hi.layout.resident_of_find he))

theorem Inv.pending_sum_le (hi : Inv p s) {cap : Nat} {region : LoadId → Region}
    (hlen : ∀ l, (region l).len = s.bytesOf p l)
    (hapart : ∀ l m, s.Pending p l → s.Pending p m → l ≠ m → (region l).Apart (region m))
    (hin : ∀ l, s.Pending p l → (region l).stop ≤ cap) :
    (s.pending.sumBy fun _ l => s.bytesOf p l) ≤ cap := by
  have hsum := Region.sumBy_len_le s.pending (fun _ => true) region
    (fun k l k' m h h' hne => hapart l m (hi.layout.pending_of_find h)
      (hi.layout.pending_of_find h') (hi.layout.load_ne h h' hne))
    (fun k l h => hin l (hi.layout.pending_of_find h))
  simpa only [if_true, hlen] using hsum

theorem Inv.reserved_le (hi : Inv p s) : s.stats.reservedBytes ≤ p.config.capacityBytes := by
  rw [hi.counters.reserved]
  refine hi.pending_sum_le (fun l => ?_) hi.layout.claim_apart hi.layout.claim_in
  rw [State.claim, hi.layout.result]

theorem Inv.stagingUsed_le (hi : Inv p s) : s.stats.stagingUsedBytes ≤ p.config.stagingBytes := by
  rw [hi.counters.staging]
  refine hi.pending_sum_le (fun l => ?_) hi.layout.stage_apart hi.layout.stage_in
  rw [State.stage, hi.layout.result]

/-! ## The accounting of a reachable state -/

/-- What holds of the arena, the staging area and the byte counters. -/
structure Accounted (p : Params) (s : State) : Prop where
  entry_aligned : ∀ k e, s.entries.find? k = some e → 64 ∣ (s.heap e).arenaOffset
  entry_in : ∀ k e, s.entries.find? k = some e →
    (s.heap e).arenaOffset + s.bytesOf p e ≤ p.config.capacityBytes
  entry_apart : ∀ k e k' f, s.entries.find? k = some e → s.entries.find? k' = some f → k ≠ k' →
    (s.region p e).Apart (s.region p f)
  claim_apart : ∀ k l k' m, s.pending.find? k = some l → s.pending.find? k' = some m → k ≠ k' →
    (s.claim p l).Apart (s.claim p m)
  claim_clear : ∀ k l k' e, s.pending.find? k = some l → s.entries.find? k' = some e →
    e ∉ (s.loads l).victims → e ≠ (s.loads l).result → (s.claim p l).Apart (s.region p e)
  stage_apart : ∀ k l k' m, s.pending.find? k = some l → s.pending.find? k' = some m → k ≠ k' →
    (s.stage p l).Apart (s.stage p m)
  stage_in : ∀ k l, s.pending.find? k = some l →
    (s.loads l).stagingOffset + s.bytesOf p l ≤ p.config.stagingBytes
  resident : s.stats.residentBytes =
    s.entries.sumBy fun _ e => if (s.heap e).ready then s.bytesOf p e else 0
  reserved : s.stats.reservedBytes = s.pending.sumBy fun _ l => s.bytesOf p l
  staging : s.stats.stagingUsedBytes = s.pending.sumBy fun _ l => s.bytesOf p l
  resident_le : s.stats.residentBytes ≤ p.config.capacityBytes
  reserved_le : s.stats.reservedBytes ≤ p.config.capacityBytes
  staging_le : s.stats.stagingUsedBytes ≤ p.config.stagingBytes
  /-- What removing a ready entry subtracts. -/
  resident_covers : ∀ k e, s.entries.find? k = some e → (s.heap e).ready = true →
    s.bytesOf p e ≤ s.stats.residentBytes
  /-- What ending a load subtracts. -/
  reserved_covers : ∀ k l, s.pending.find? k = some l →
    s.bytesOf p l ≤ s.stats.reservedBytes ∧ s.bytesOf p l ≤ s.stats.stagingUsedBytes

theorem Inv.accounted (hi : Inv p s) : Accounted p s where
  entry_aligned _ e he := hi.layout.entry_aligned e (hi.layout.resident_of_find he)
  entry_in _ e he := hi.layout.entry_in e (hi.layout.resident_of_find he)
  entry_apart _ e _ f he hf hne := hi.layout.entry_apart e f (hi.layout.resident_of_find he)
    (hi.layout.resident_of_find hf) (hi.layout.entry_ne he hf hne)
  claim_apart _ l _ m hk hm hne := hi.layout.claim_apart l m (hi.layout.pending_of_find hk)
    (hi.layout.pending_of_find hm) (hi.layout.load_ne hk hm hne)
  claim_clear _ _ _ _ hk he hv hne := hi.layout.claim_apart_entry (hi.layout.pending_of_find hk)
    (hi.layout.resident_of_find he) hv hne
  stage_apart _ l _ m hk hm hne := hi.layout.stage_apart l m (hi.layout.pending_of_find hk)
    (hi.layout.pending_of_find hm) (hi.layout.load_ne hk hm hne)
  stage_in _ l hk := by
    have hin := hi.layout.stage_in l (hi.layout.pending_of_find hk)
    rwa [State.stage, hi.layout.result] at hin
  resident := hi.counters.resident
  reserved := hi.counters.reserved
  staging := hi.counters.staging
  resident_le := hi.resident_le
  reserved_le := hi.reserved_le
  staging_le := hi.stagingUsed_le
  resident_covers _ e he hready := by
    have hle := OrdMap.le_sumBy (fun _ e => if (s.heap e).ready then s.bytesOf p e else 0) he
    rwa [if_pos hready, ← hi.counters.resident] at hle
  reserved_covers _ l hk := by
    have hle := OrdMap.le_sumBy (fun _ l => s.bytesOf p l) hk
    exact ⟨hi.counters.reserved ▸ hle, hi.counters.staging ▸ hle⟩

/-- **Every reachable state accounts for its arena, its staging area and its bytes.** -/
theorem reached_accounted (h : Reached p s) : Accounted p s := h.inv.accounted

/-- Two loads in the tiny cache, one of them parked: the state is accounted for. -/
theorem accounted_in_tinyCache :
    ∃ evs s, exec (tinyCache true) (.initial zeroed zeroed)
        (loadSteps 0 3 ++ [.finishCopy 0, .acquire 1 (some 4), .acquire 2 (some 5)]) =
          some (evs, s) ∧
      s.entries.size = 1 ∧ s.pending.size = 1 ∧ Accounted (tinyCache true) s := by
  have hsizes : ((exec (tinyCache true) (.initial zeroed zeroed)
      (loadSteps 0 3 ++ [.finishCopy 0, .acquire 1 (some 4), .acquire 2 (some 5)])).map fun r =>
        (r.2.entries.size, r.2.pending.size)) = some (1, 1) := by
    decide +kernel
  obtain ⟨⟨evs, s⟩, hexec, hsize⟩ := Option.map_eq_some_iff.mp hsizes
  obtain ⟨h₁, h₂⟩ := Prod.mk.inj hsize
  exact ⟨evs, s, hexec, h₁, h₂,
    reached_accounted ⟨_, evs, ⟨zeroed, zeroed, rfl⟩, exec_trace hexec⟩⟩

end ExpertStreaming.RamCache
