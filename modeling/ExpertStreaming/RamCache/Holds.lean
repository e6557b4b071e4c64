import ExpertStreaming.RamCache.Recency

/-! # The RAM expert cache: leases, references and waiting threads

Granting and releasing leases, joining and leaving a load. These change pins,
reference counts and the table of waiting threads, never the arena's layout.
-/
namespace ExpertStreaming.RamCache
open Lib State OrdMap

variable {p : Params} {s : State}

/-! ## Changes that keep the layout -/

/-- A state that differs from another in pins, references, leases and calls only. -/
structure SameOrder (s t : State) : Prop extends SameLayout s t where
  canonical : t.canonical = s.canonical
  byRecency : t.byRecency = s.byRecency
  less : ∀ (p : Params) a b, lruLess p (t.heap a) (t.heap b) = lruLess p (s.heap a) (s.heap b)
  staging : t.staging = s.staging
  arena : t.arena = s.arena
  residentBytes : t.stats.residentBytes = s.stats.residentBytes
  reservedBytes : t.stats.reservedBytes = s.stats.reservedBytes
  stagingUsedBytes : t.stats.stagingUsedBytes = s.stats.stagingUsedBytes
  activeLoads : t.stats.activeLoads = s.stats.activeLoads

theorem Inv.sameOrder {t} (hi : Inv p s) (h : SameOrder s t) (hpins : Pins p t) (huses : Uses t)
    (hcalls : Calls p t) (hcanon : ∀ i c, t.calls.find? i = some c →
      s.canonical.find? (p.descriptor c.desc).key = some c.desc) : Inv p t where
  layout := hi.layout.transfer h.toSameLayout
  canonical := hi.canonical.transfer h.toSameLayout (fun _ _ hk => h.canonical ▸ hk)
    (fun i c hc => h.canonical ▸ hcanon i c hc)
  retention := hi.retention.transfer h.toSameLayout h.byRecency (h.less p)
  counters := hi.counters.transfer h.toSameLayout h.residentBytes h.reservedBytes
    h.stagingUsedBytes h.activeLoads
  pins := hpins
  uses := huses
  calls := hcalls
  contents := hi.contents.transfer h.toSameLayout h.arena

/-! ## Leases -/

theorem grant_sameOrder (s : State) (e : EntryId) (d : DescId) : SameOrder s (s.grant e d) := by
  constructor
  case toSameLayout =>
    constructor <;> intros <;> simp only [grant, modifyEntry] <;> split <;> rfl
  case less =>
    intro p a b
    simp only [grant, modifyEntry]
    split <;> split <;> rfl
  all_goals rfl

theorem leaseCount_insert {i l} (h : s.leases.find? i = none) (e : EntryId) :
    (s.leases.insert i l).sumBy (fun _ x => if x.entry = e then 1 else 0) =
      (if l.entry = e then 1 else 0) + s.leaseCount e :=
  sumBy_insert _ l h

variable {t : Tid} {l : LoadId} {d : DescId} {c : Call}

theorem Inv.grant (hi : Inv p s) {e} (he : s.Resident p e) (hready : (s.heap e).ready = true)
    (hdesc : (s.heap e).desc = d) : Inv p (s.grant e d) := by
  have h := grant_sameOrder s e d
  have hfresh : s.leases.find? s.nextLease = none := by
    cases hf : s.leases.find? s.nextLease with
    | none => rfl
    | some l => exact absurd (hi.pins.lease_fresh _ l hf) (lt_irrefl _)
  refine hi.sameOrder h ⟨?_, ?_, ?_, ?_⟩ hi.uses
    (hi.calls.transfer h.toSameLayout rfl rfl rfl) hi.canonical.call
  · intro x
    have hcount := hi.pins.count x
    show (if x = e then _ else _ : Entry).pins = _
    rw [leaseCount]
    show _ = (s.leases.insert s.nextLease ⟨e, d⟩).sumBy _ + s.completionPin x
    rw [leaseCount_insert hfresh]
    by_cases hx : x = e
    · subst hx; simp only [if_true, hcount]; omega
    · simp only [if_neg hx, if_neg (Ne.symm hx), hcount]; omega
  · intro i l hl
    rw [h.leased]
    rw [show (s.grant e d).leases = s.leases.insert s.nextLease ⟨e, d⟩ from rfl,
      find?_insert] at hl
    split at hl
    · cases hl; exact ⟨he, hready, hdesc⟩
    · exact hi.pins.lease i l hl
  · intro i l hl
    rw [show (s.grant e d).leases = s.leases.insert s.nextLease ⟨e, d⟩ from rfl,
      find?_insert] at hl
    show i < s.nextLease + 1
    split at hl
    next hnew => exact hnew ▸ Nat.lt_succ_self _
    · exact (hi.pins.lease_fresh i l hl).trans (Nat.lt_succ_self _)
  · intro l hl
    rw [h.served]
    exact hi.pins.completing l hl

theorem release_sameOrder (s : State) (i : LeaseId) (l : Lease) :
    SameOrder s (s.release i l) := by
  constructor
  case toSameLayout =>
    constructor <;> intros <;> simp only [release, modifyEntry] <;> split <;> rfl
  case less =>
    intro p a b
    simp only [release, modifyEntry]
    split <;> split <;> rfl
  all_goals rfl

theorem Inv.release (hi : Inv p s) {i l} (hl : s.leases.find? i = some l) :
    Inv p (s.release i l) := by
  have h := release_sameOrder s i l
  have hsum : ∀ x, s.leaseCount x = (if l.entry = x then 1 else 0) +
      (s.leases.erase i).sumBy (fun _ y => if y.entry = x then 1 else 0) :=
    fun x => sumBy_erase _ hl
  have hsub : ∀ j m, (s.leases.erase i).find? j = some m → s.leases.find? j = some m := by
    intro j m hm
    rw [find?_erase] at hm
    split at hm
    · cases hm
    · exact hm
  refine hi.sameOrder h ⟨?_, ?_, ?_, ?_⟩ hi.uses
    (hi.calls.transfer h.toSameLayout rfl rfl rfl) hi.canonical.call
  · intro x
    have hcount := hi.pins.count x
    have hx := hsum x
    show (if x = l.entry then _ else _ : Entry).pins =
      (s.leases.erase i).sumBy _ + s.completionPin x
    by_cases heq : x = l.entry
    · subst heq
      rw [if_pos rfl] at hx ⊢
      show u64Sub (s.heap l.entry).pins 1 = _
      rw [u64Sub_of_le (by omega)]
      omega
    · rw [if_neg heq]
      rw [if_neg (Ne.symm heq)] at hx
      omega
  · intro j m hm
    rw [h.leased]
    exact hi.pins.lease j m (hsub j m hm)
  · intro j m hm
    exact hi.pins.lease_fresh j m (hsub j m hm)
  · intro m hm
    rw [h.served]
    exact hi.pins.completing m hm

/-! ## Entering and leaving -/

/-- A thread that refers to no load: outside `acquire`, or in the admission wait. -/
def State.Idle (s : State) (t : Tid) : Prop := ∀ c, s.calls.find? t = some c → c.load? = none

theorem Call.load_of_owned (h : c.owned? = some l) : c.load? = some l := by
  cases c with
  | admission d => cases h
  | coalesced d m => cases h
  | reading d m done => exact h
  | readFailed d m done error => exact h
  | copying d m done => exact h

theorem holders_erase (h : s.calls.find? t = some c) (l : LoadId) :
    s.holders l = (if c.load? = some l then 1 else 0) + (s.leave t).holders l :=
  sumBy_erase _ h

theorem holders_leave (h : s.Idle t) (l : LoadId) :
    (s.leave t).holders l = s.holders l := by
  cases hc : s.calls.find? t with
  | none =>
    show (s.calls.erase t).sumBy _ = _
    rw [erase_of_none hc]; rfl
  | some c => rw [holders_erase hc, h c hc, if_neg (by simp), Nat.zero_add]

theorem holders_setCall (h : s.Idle t) (c : Call) (l : LoadId) :
    (s.setCall t c).holders l = (if c.load? = some l then 1 else 0) + s.holders l := by
  rw [← holders_leave h]
  exact sumBy_insert_erase _ _ _ _

theorem calls_leave {i} (h : (s.leave t).calls.find? i = some c) :
    i ≠ t ∧ s.calls.find? i = some c := by
  rw [leave, find?_erase] at h
  split at h
  · cases h
  next hne => exact ⟨hne, h⟩

theorem calls_setCall {i c'} (h : (s.setCall t c).calls.find? i = some c') :
    (i = t ∧ c' = c) ∨ (i ≠ t ∧ s.calls.find? i = some c') := by
  rw [setCall, find?_insert] at h
  split at h
  next he => exact .inl ⟨he, (Option.some.inj h).symm⟩
  next hne => exact .inr ⟨hne, h⟩

theorem leave_sameOrder (s : State) (t : Tid) : SameOrder s (s.leave t) := by
  constructor
  case toSameLayout => constructor <;> intros <;> rfl
  all_goals intros; rfl

theorem setCall_sameOrder (s : State) (t : Tid) (c : Call) : SameOrder s (s.setCall t c) := by
  constructor
  case toSameLayout => constructor <;> intros <;> rfl
  all_goals intros; rfl

theorem Calls.leave {u} (hc : Calls p s) (h : SameLayout s u) (hcalls : u.calls = s.calls.erase t)
    (hstaging : u.staging = s.staging) (harena : u.arena = s.arena)
    (hnone : ∀ c, s.calls.find? t = some c → ∀ l, c.owned? ≠ some l) : Calls p u where
  ok i c hi := by
    rw [hcalls] at hi
    exact (hc.ok i c (calls_leave hi).2).transfer h hstaging harena
  owner i i' c c' l h₁ h₂ := by
    rw [hcalls] at h₁ h₂
    exact hc.owner i i' c c' l (calls_leave h₁).2 (calls_leave h₂).2
  owned l hl := by
    obtain ⟨i, c, hi, ho⟩ := hc.owned l ((h.pending l).mp hl)
    refine ⟨i, c, ?_, ho⟩
    have hne : i ≠ t := by rintro rfl; exact hnone c hi l ho
    rw [hcalls, find?_erase, if_neg hne]
    exact hi

theorem Inv.leave (hi : Inv p s) (ht : s.Idle t) : Inv p (s.leave t) := by
  have h := leave_sameOrder s t
  refine hi.sameOrder h (hi.pins.transfer h.toSameLayout (fun _ => rfl) (fun _ => rfl) rfl rfl)
    ?_ (hi.calls.leave h.toSameLayout rfl rfl rfl fun c hc l ho => ?_) ?_
  · intro l
    rw [holders_leave ht]
    exact hi.uses l
  · have hnone := ht c hc
    rw [Call.load_of_owned ho] at hnone; cases hnone
  · intro i c hc
    exact hi.canonical.call i c (calls_leave hc).2

theorem Calls.setCall (hc : Calls p s) (ht : s.Idle t)
    (hok : CallOk p (s.setCall t c) c) (hnone : c.owned? = none) : Calls p (s.setCall t c) where
  ok i c' hc' := by
    rcases calls_setCall hc' with ⟨rfl, rfl⟩ | ⟨_, hold⟩
    · exact hok
    · exact (hc.ok i c' hold).transfer (setCall_sameOrder s t c).toSameLayout rfl rfl
  owner i i' c₁ c₂ l h₁ h₂ ho₁ ho₂ := by
    rcases calls_setCall h₁ with ⟨_, rfl⟩ | ⟨_, h₁⟩
    · rw [hnone] at ho₁; cases ho₁
    · rcases calls_setCall h₂ with ⟨_, rfl⟩ | ⟨_, h₂⟩
      · rw [hnone] at ho₂; cases ho₂
      · exact hc.owner i i' c₁ c₂ l h₁ h₂ ho₁ ho₂
  owned l hl := by
    obtain ⟨i, c', hi, ho⟩ := hc.owned l hl
    refine ⟨i, c', ?_, ho⟩
    have hne : i ≠ t := by
      rintro rfl
      have := ht c' hi
      rw [Call.load_of_owned ho] at this; cases this
    rw [State.setCall, find?_insert_of_ne _ _ hne]
    exact hi

theorem Inv.await (hi : Inv p s) (ht : s.Idle t)
    (hcanon : s.canonical.find? (p.descriptor d).key = some d)
    (hcap : (p.descriptor d).bytes ≤ p.config.capacityBytes)
    (hstage : (p.descriptor d).bytes ≤ p.config.stagingBytes) :
    Inv p (s.setCall t (.admission d)) := by
  have h := setCall_sameOrder s t (.admission d)
  refine hi.sameOrder h (hi.pins.transfer h.toSameLayout (fun _ => rfl) (fun _ => rfl) rfl rfl)
    ?_ (hi.calls.setCall ht ⟨hcap, hstage⟩ rfl) ?_
  · intro l
    rw [holders_setCall ht, show (Call.admission d).load? = none from rfl, if_neg (by simp),
      Nat.zero_add]
    exact hi.uses l
  · intro i c hc
    rcases calls_setCall hc with ⟨_, rfl⟩ | ⟨_, hold⟩
    · exact hcanon
    · exact hi.canonical.call i c hold

/-! ## References to loads -/

theorem modifyLoad_uses_sameOrder (s : State) (l : LoadId) (f : Nat → Nat) :
    SameOrder s (s.modifyLoad l fun x => { x with useCount := f x.useCount }) := by
  constructor
  case toSameLayout =>
    constructor <;> intros <;> simp only [modifyLoad] <;> split <;> rfl
  all_goals intros; rfl

theorem SameOrder.trans {t u} (h : SameOrder s t) (h' : SameOrder t u) :
    SameOrder s u where
  toSameLayout := h.toSameLayout.trans h'.toSameLayout
  canonical := h'.canonical.trans h.canonical
  byRecency := h'.byRecency.trans h.byRecency
  less p a b := (h'.less p a b).trans (h.less p a b)
  staging := h'.staging.trans h.staging
  arena := h'.arena.trans h.arena
  residentBytes := h'.residentBytes.trans h.residentBytes
  reservedBytes := h'.reservedBytes.trans h.reservedBytes
  stagingUsedBytes := h'.stagingUsedBytes.trans h.stagingUsedBytes
  activeLoads := h'.activeLoads.trans h.activeLoads

theorem unpin_sameOrder (s : State) (e : EntryId) :
    SameOrder s (s.modifyEntry e fun x => { x with pins := u64Sub x.pins 1 }) := by
  constructor
  case toSameLayout =>
    constructor <;> intros <;> simp only [modifyEntry] <;> split <;> rfl
  case less =>
    intro p a b
    simp only [modifyEntry]
    split <;> split <;> rfl
  all_goals rfl

/-- What dropping a reference does to pins and counts. -/
structure Dropped (s : State) (l : LoadId) (t : State) : Prop extends SameOrder s t where
  heap : ∀ e, t.heap e = { s.heap e with pins := (t.heap e).pins }
  pins : ∀ e, (t.heap e).pins =
    if e = l ∧ (s.loads l).useCount - 1 = 0 ∧ (s.loads l).state = .ready then
      u64Sub (s.heap e).pins 1 else (s.heap e).pins
  useCount : ∀ m, (t.loads m).useCount =
    if m = l then (s.loads m).useCount - 1 else (s.loads m).useCount
  leases : t.leases = s.leases
  nextLease : t.nextLease = s.nextLease
  calls : t.calls = s.calls

theorem dropLoad_spec (hres : (s.loads l).result = l) :
    Dropped s l (s.dropLoad l) := by
  have hmod := modifyLoad_uses_sameOrder s l (· - 1)
  have huse : ∀ m, ((s.modifyLoad l fun x => { x with useCount := x.useCount - 1 }).loads m).useCount
      = if m = l then (s.loads m).useCount - 1 else (s.loads m).useCount := by
    intro m
    simp only [modifyLoad]
    split <;> rfl
  have hself := huse l
  rw [if_pos rfl] at hself
  unfold dropLoad
  dsimp only
  split
  next hlast =>
    rw [hself, hmod.state] at hlast
    rw [hmod.result, hres]
    refine ⟨hmod.trans (unpin_sameOrder _ l), fun e => ?_, ?_, huse, rfl, rfl, rfl⟩
    · simp only [modifyEntry]
      split <;> rfl
    intro e
    by_cases he : e = l
    · simp [modifyEntry, modifyLoad, he, hlast]
    · simp [modifyEntry, modifyLoad, he]
  next hmore =>
  rw [hself, hmod.state] at hmore
  refine ⟨hmod, fun e => rfl, ?_, huse, rfl, rfl, rfl⟩
  intro e
  rw [if_neg (fun h => hmore h.2)]
  rfl

theorem Pins.drop {t} (hp : Pins p s) (h : Dropped s l t) (hheld : 0 < (s.loads l).useCount) :
    Pins p t where
  count e := by
    have hcount := hp.count e
    simp only [h.pins, leaseCount, h.leases, completionPin, h.state, h.useCount]
    simp only [leaseCount, completionPin] at hcount
    by_cases he : e = l
    · subst he
      by_cases hready : (s.loads e).state = .ready
      · rw [if_pos ⟨hready, hheld⟩] at hcount
        by_cases hlast : (s.loads e).useCount - 1 = 0
        · rw [if_pos ⟨rfl, hlast, hready⟩, if_pos rfl, if_neg (by omega), u64Sub_of_le (by omega)]
          omega
        · rw [if_neg (fun h => hlast h.2.1), if_pos rfl, if_pos ⟨hready, by omega⟩]
          exact hcount
      · rw [if_neg (fun h => hready h.2.2), if_neg (fun h => hready h.1)]
        rw [if_neg (fun h => hready h.1)] at hcount
        exact hcount
    · rw [if_neg (fun h => he h.1), if_neg he]
      exact hcount
  lease i m := by rw [h.leases, h.leased]; exact hp.lease i m
  lease_fresh i m := by rw [h.leases, h.nextLease]; exact hp.lease_fresh i m
  completing m hm := by
    rw [h.served]
    refine hp.completing m ⟨h.state m ▸ hm.1, ?_⟩
    have huse := hm.2
    rw [h.useCount] at huse
    split at huse <;> omega

theorem Inv.dropJoined (hi : Inv p s)
    (hc : s.calls.find? t = some (.coalesced d l)) : Inv p ((s.leave t).dropLoad l) := by
  have hleave := leave_sameOrder s t
  have hdrop : Dropped (s.leave t) l ((s.leave t).dropLoad l) :=
    dropLoad_spec (hi.layout.result l)
  have h := hleave.trans hdrop.toSameOrder
  have hholders := holders_erase hc
  have hheld : 0 < (s.loads l).useCount := by
    have huse := hi.uses l
    have := hholders l
    simp only [Call.load?, if_true] at this
    omega
  refine hi.sameOrder h ?_ ?_
    (hi.calls.leave h.toSameLayout hdrop.calls h.staging h.arena fun c hic m ho => ?_) ?_
  · exact (hi.pins.transfer hleave.toSameLayout (fun _ => rfl) (fun _ => rfl) rfl rfl).drop hdrop
      hheld
  · intro m
    have huse := hi.uses m
    have hm := hholders m
    rw [hdrop.useCount, holders, hdrop.calls, h.pendingMap]
    show (if m = l then (s.loads m).useCount - 1 else (s.loads m).useCount) =
      (s.leave t).holders m + _
    by_cases he : m = l
    · subst he
      simp only [Call.load?, if_true] at hm
      rw [if_pos rfl]; omega
    · simp only [Call.load?, Option.some.injEq, if_neg (Ne.symm he)] at hm
      rw [if_neg he]; omega
  · rw [hc] at hic; cases hic; cases ho
  · intro i c hic
    rw [hdrop.calls] at hic
    exact hi.canonical.call i c (calls_leave hic).2

theorem Inv.coalesce (hi : Inv p s) (ht : s.Idle t)
    (hcanon : s.canonical.find? (p.descriptor d).key = some d)
    (hl : s.pending.find? (p.descriptor d).key = some l) :
    Inv p ((s.modifyLoad l fun x => { x with useCount := x.useCount + 1 }).setCall t
      (.coalesced d l)) := by
  have hkey := hi.layout.load_key _ _ hl
  have hpend : s.Pending p l := by rw [State.Pending, hi.layout.result, hkey]; exact hl
  have hdesc : (s.heap l).desc = d := by
    have := hi.canonical.load l hpend
    rw [hkey, hcanon] at this
    exact (Option.some.inj this).symm
  have hmod := modifyLoad_uses_sameOrder s l (· + 1)
  have h := hmod.trans (setCall_sameOrder _ t (.coalesced d l))
  have huse : ∀ m, ((s.modifyLoad l fun x => { x with useCount := x.useCount + 1 }).loads m).useCount
      = if m = l then (s.loads m).useCount + 1 else (s.loads m).useCount := by
    intro m
    simp only [modifyLoad]
    split <;> rfl
  -- a load still in `pending_` has no completion pin, so the count may grow
  have hcompleting : ∀ m,
      (s.modifyLoad l fun x => { x with useCount := x.useCount + 1 }).Completing m ↔
        s.Completing m := by
    intro m
    simp only [State.Completing, hmod.state, huse]
    by_cases hm : m = l
    · subst hm
      have : (s.loads m).state ≠ .ready := by
        rcases hi.layout.load_phase m hpend with hp | hp <;> rw [hp.1] <;> simp
      simp [this]
    · simp [hm]
  refine hi.sameOrder h ⟨?_, ?_, hi.pins.lease_fresh, ?_⟩ ?_ ?_ ?_
  · intro e
    show (s.heap e).pins = s.leaseCount e + completionPin _ e
    rw [hi.pins.count e]
    congr 1
    exact if_congr (hcompleting e).symm rfl rfl
  · intro i x hx
    rw [h.leased]
    exact hi.pins.lease i x hx
  · intro m hm
    rw [h.served]
    exact hi.pins.completing m ((hcompleting m).mp hm)
  · intro m
    rw [holders_setCall (s := s.modifyLoad l fun x => { x with useCount := x.useCount + 1 }) ht]
    refine (huse m).trans ?_
    rw [hi.uses m]
    show _ = _ + s.holders m + s.pending.sumBy _
    by_cases hm : m = l
    · subst hm; simp only [Call.load?, if_true]; omega
    · simp only [Call.load?, Option.some.injEq, if_neg hm, if_neg (Ne.symm hm)]; omega
  · refine (hi.calls.transfer hmod.toSameLayout rfl rfl rfl).setCall ht ?_ rfl
    exact ⟨(h.desc l).trans hdesc, h.next ▸ hi.layout.load_fresh l hpend,
      .inl ((h.pending l).mpr hpend)⟩
  · intro i c hic
    rcases calls_setCall hic with ⟨_, rfl⟩ | ⟨_, hold⟩
    · exact hcanon
    · exact hi.canonical.call i c hold

end ExpertStreaming.RamCache
