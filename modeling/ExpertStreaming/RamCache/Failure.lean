import ExpertStreaming.RamCache.Leases

/-! # The RAM expert cache: an `acquire` that throws

What the steps of a failing call leave alone, what its last step gives back, and
what the callers waiting for its load receive. Other threads act between those
steps, so the frame is stated for each step of the failing thread.
-/
namespace ExpertStreaming.RamCache
open Lib State OrdMap Option

variable {p : Params} {s w u : State} {t : Tid} {d : DescId} {l : LoadId} {a : Action}
  {r : State × Outcome} {error : CacheError}

def State.Owns (s : State) (t : Tid) (l : LoadId) : Prop :=
  ∃ c, s.calls.find? t = some c ∧ c.owned? = some l

theorem Calls.pending_of_owned (hk : Calls p s) (h : s.Owns t l) : s.Pending p l := by
  obtain ⟨c, hc, ho⟩ := h
  have hok := hk.ok t c hc
  cases c with
  | admission d => cases ho
  | coalesced d m => cases ho
  | reading d m n => cases ho; exact hok.1
  | readFailed d m n error => cases ho; exact hok.1
  | copying d m n => cases ho; exact hok.1

/-! ## The frame of one step -/

/-- The load has in `u` the reservation it had in `s`, with the bytes read so far. -/
structure SameReservation (p : Params) (s u : State) (l : LoadId) : Prop where
  pending : u.Pending p l
  claimOffset : (u.loads l).arenaOffset = (s.loads l).arenaOffset
  stagingOffset : (u.loads l).stagingOffset = (s.loads l).stagingOffset
  victims : (u.loads l).victims = (s.loads l).victims
  marks : ∀ e, s.Resident p e → ((u.heap e).reservedBy = some l ↔ (s.heap e).reservedBy = some l)
  staged : u.staging.read (s.loads l).stagingOffset (s.bytesOf p l) =
    s.staging.read (s.loads l).stagingOffset (s.bytesOf p l)

theorem SameLayout.reservation (h : SameLayout s u) (hstaging : u.staging = s.staging)
    (hp : s.Pending p l) : SameReservation p s u l where
  pending := (h.pending l).mpr hp
  claimOffset := h.claimOffset l
  stagingOffset := h.stagingOffset l
  victims := h.victims l
  marks e _ := by rw [h.reservedBy]
  staged := by rw [hstaging]

/-- A step of thread `t` that keeps the resident entries, and the reservations `t` does not own.
-/
structure Frame (p : Params) (t : Tid) (s u : State) : Prop where
  entries : u.entries = s.entries
  desc : ∀ e, s.Resident p e → (u.heap e).desc = (s.heap e).desc
  arenaOffset : ∀ e, s.Resident p e → (u.heap e).arenaOffset = (s.heap e).arenaOffset
  data : ∀ e, s.Resident p e → (u.heap e).data = (s.heap e).data
  ready : ∀ e, s.Resident p e → (u.heap e).ready = (s.heap e).ready
  arena : u.arena = s.arena
  others : ∀ l, s.Pending p l → ¬ s.Owns t l → SameReservation p s u l

theorem SameLayout.frame (h : SameLayout s u) (harena : u.arena = s.arena)
    (hstaging : u.staging = s.staging) : Frame p t s u where
  entries := h.entries
  desc e _ := h.desc e
  arenaOffset _ he := h.arenaOffset he
  data _ he := h.data he
  ready _ he := h.ready he
  arena := harena
  others _ hp _ := h.reservation hstaging hp

theorem Quiet.frame (h : Quiet s u) : Frame p t s u := h.toSameLayout.frame h.arena h.staging

theorem SameOrder.frame (h : SameOrder s u) : Frame p t s u :=
  h.toSameLayout.frame h.arena h.staging

theorem Frame.after_quiet (h : Quiet s w) (h' : Frame p t w u) : Frame p t s u where
  entries := h'.entries.trans h.entries
  desc e he := (h'.desc e ((h.resident e).mpr he)).trans (h.desc e)
  arenaOffset e he := (h'.arenaOffset e ((h.resident e).mpr he)).trans (h.arenaOffset he)
  data e he := (h'.data e ((h.resident e).mpr he)).trans (h.data he)
  ready e he := (h'.ready e ((h.resident e).mpr he)).trans (h.ready he)
  arena := h'.arena.trans h.arena
  others l hp hown := by
    have hown' : ¬ w.Owns t l := fun ⟨c, hc, ho⟩ => hown ⟨c, h.calls ▸ hc, ho⟩
    have hr := h'.others l ((h.pending l).mpr hp) hown'
    refine ⟨hr.pending, hr.claimOffset.trans (h.claimOffset l),
      hr.stagingOffset.trans (h.stagingOffset l), hr.victims.trans (h.victims l), ?_, ?_⟩
    · intro e he
      rw [hr.marks e ((h.resident e).mpr he), h.reservedBy]
    · have hstaged := hr.staged
      rwa [h.stagingOffset, h.bytesOf, h.staging] at hstaged

theorem Admitted.frame {offset stagingOffset victims}
    (h : Admitted p s u t d offset victims stagingOffset) (hi : Inv p s)
    (ha : Admissible p s t d offset victims stagingOffset) : Frame p t s u := by
  have hres : ∀ {e}, s.Resident p e → e ≠ s.next := fun he => (hi.layout.entry_fresh _ he).ne
  refine ⟨h.entries, ?_, ?_, ?_, ?_, h.arena, ?_⟩
  · intro e he; rw [h.entry e (hres he)]
  · intro e he; rw [h.entry e (hres he)]
  · intro e he; rw [h.entry e (hres he)]
  · intro e he; rw [h.entry e (hres he)]
  · intro l hp _
    have hl : l ≠ s.next := (hi.layout.load_fresh l hp).ne
    refine ⟨(h.pending hi.layout ha.absent l).mpr (.inl hp), by rw [h.load l hl],
      by rw [h.load l hl], by rw [h.load l hl], ?_, by rw [h.staging]⟩
    intro e he
    rw [h.entry e (hres he)]
    dsimp only
    split
    next hv =>
      -- a victim was reserved by nobody, and the new mark names a new load
      have hfree := (evictable_iff.mp (ha.placement.evictable e hv)).2.2.elim id id
      rw [hfree]
      exact iff_of_false (fun h => hl (some.inj h).symm) fun h => by cases h
    · rfl

theorem frame_of_stage_write (hi : Inv p s) {c c'} (hc : s.calls.find? t = some c)
    (ho : c.owned? = some l) (hp : s.Pending p l) {at' bs} (hlow : (s.loads l).stagingOffset ≤ at')
    (hhigh : at' + bs.length ≤ (s.stage p l).stop) :
    Frame p t s ({ s with staging := s.staging.write at' bs }.setCall t c') := by
  have h := stage_write_progress s t c' at' bs
  refine ⟨h.entries, fun e _ => h.desc e, fun e _ => rfl, fun e _ => rfl, fun e _ => rfl, rfl, ?_⟩
  intro m hm hown
  have hne : m ≠ l := fun heq => hown ⟨c, hc, heq ▸ ho⟩
  exact ⟨(h.pending m).mpr hm, rfl, rfl, rfl, fun _ _ => Iff.rfl,
    stage_read_apart hi.layout hp hm hne hlow hhigh le_rfl⟩

theorem Failed.frame (h : Failed p s u t l error) (hl : Layout p s) (hp : s.Pending p l)
    (hown : s.Owns t l) : Frame p t s u where
  entries := h.entries
  desc e _ := h.desc e
  arenaOffset e _ := h.arenaOffset e
  data e _ := h.data e
  ready e _ := h.ready_eq e
  arena := h.arena
  others m hm hnot := by
    have hne : m ≠ l := fun heq => hnot (heq ▸ hown)
    exact ⟨(h.pending hl hp m).mpr ⟨hm, hne⟩, h.claimOffset m, h.stagingOffset m, h.victims m,
      fun e _ => h.reservedBy_of_ne hne, by rw [h.staging]⟩

/-! ## The steps of a failing call -/

/-- The frame of a step, and the retention order unless the step ages all frequencies. -/
structure Kept (p : Params) (t : Tid) (a : Action) (s u : State) : Prop
    extends Frame p t s u where
  order : (∀ d, a = .acquire t (some d) → ¬ s.Ages p) → u.byRecency = s.byRecency
  listed : u.byRecency.Perm s.byRecency

theorem Frame.kept (h : Frame p t s u) (horder : u.byRecency = s.byRecency) : Kept p t a s u :=
  ⟨h, fun _ => horder, horder ▸ List.Perm.refl _⟩

/-- A step of a failing call goes on, or throws for a reason outside the cache's bookkeeping. -/
def Outcome.Failing (o : Outcome) : Prop :=
  o = .running ∨ ∃ error, o = .threw error ∧ error.isInternal = false

theorem Hit.not_failing {e} (h : Hit p s e d r) : ¬ r.2.Failing := by
  rintro (hrun | ⟨error, hthrew, hext⟩)
  · exact h.ends.not_running hrun
  · cases h with
    | threw touched =>
      cases hthrew
      rw [touched.internal _ rfl] at hext; cases hext
    | leased touched => cases hthrew

theorem modifyStats_sameLayout (s : State) (f : CacheStats → CacheStats) :
    SameLayout s (s.modifyStats f) := by
  constructor <;> intros <;> rfl

theorem Attempted.layout_cases (h : Attempted p s t d r) :
    (∃ e, Hit p (s.leave t) e d r) ∨
      (∃ offset victims stagingOffset, Admissible p s t d offset victims stagingOffset ∧
        r = (s.reserve p t d offset victims stagingOffset, .running)) ∨
      SameLayout s r.1 ∧ r.1.arena = s.arena ∧ r.1.staging = s.staging ∧
        r.1.byRecency = s.byRecency := by
  cases h with
  | hit found ready hit => exact .inl ⟨_, hit⟩
  | @coalesced l misses found =>
    have hjoin : SameLayout (s.modifyStats fun x => { x with
        coalescedLoads := x.coalescedLoads + 1 }) (s.coalesce t d l).1 :=
      ((modifyLoad_uses_sameOrder _ l (· + 1)).trans (setCall_sameOrder _ t _)).toSameLayout
    exact .inr (.inr ⟨(modifyStats_sameLayout s _).trans hjoin, rfl, rfl, rfl⟩)
  | noRoom misses quiet full =>
    refine .inr (.inr ⟨?_, rfl, rfl, rfl⟩)
    constructor <;> intros <;> rfl
  | waits misses busy =>
    refine .inr (.inr ⟨?_, rfl, rfl, rfl⟩)
    constructor <;> intros <;> rfl
  | mismatch misses bad =>
    exact .inr (.inr ⟨(leave_sameOrder s t).toSameLayout, rfl, rfl, rfl⟩)
  | admitted misses admissible sources => exact .inr (.inl ⟨_, _, _, admissible, rfl⟩)

theorem Attempted.frame (h : Attempted p s t d r) (hi : Inv p s) (hf : r.2.Failing) :
    Frame p t s r.1 ∧ r.1.byRecency = s.byRecency := by
  rcases h.layout_cases with ⟨e, hit⟩ | ⟨_, _, _, hadm, rfl⟩ | ⟨hsame, harena, hstaging, horder⟩
  · exact absurd hf hit.not_failing
  · exact ⟨(reserve_spec hadm.absent).frame hi hadm, rfl⟩
  · exact ⟨hsame.frame harena hstaging, horder⟩

theorem Acquired.kept {value} (h : Acquired p s t value r) (hf : r.2.Failing) :
    Kept p t (.acquire t value) s r.1 := by
  cases h with
  | null => exact (Quiet.refl s).frame.kept rfl
  | tooLarge large =>
    have hcount : Quiet s (s.modifyStats fun x => { x with
        rejectedAdmissions := x.rejectedAdmissions + 1 }) := Quiet.modifyStats rfl rfl rfl rfl
    exact hcount.frame.kept rfl
  | reused found other => exact (Quiet.refl s).frame.kept rfl
  | observeThrew observed =>
    rcases hf with hrun | ⟨error, hthrew, hext⟩
    · cases hrun
    · cases hthrew
      rw [observed.internal _ rfl] at hext; cases hext
  | @attempted d u r registered observe entering attempted =>
    have hobs := observe_spec registered.retention (p.descriptor d).key
    rw [observe] at hobs
    obtain ⟨hframe, horder⟩ := attempted.frame (registered.reorders hobs.reorders) hf
    refine ⟨.after_quiet ((register_quiet p s d).trans hobs.reorders.quiet) hframe, ?_, ?_⟩
    · intro hages
      exact horder.trans (hobs.steady (hages d rfl))
    · rw [horder]; exact hobs.perm rfl

theorem ReadFinished.kept (h : ReadFinished p s t d l r) (hi : Inv p s)
    (hc : s.calls.find? t = some (.reading d l (p.descriptor d).extents.length))
    (hf : r.2.Failing) (hcopy : ∀ d l n, r.1.calls.find? t ≠ some (.copying d l n)) :
    Frame p t s r.1 ∧ r.1.byRecency = s.byRecency := by
  cases h with
  | leasedAway leased =>
    have hcounted : Inv p (s.modifyStats fun x => { x with
        pinnedCapacityFailures := x.pinnedCapacityFailures + 1 }) := hi.count rfl rfl rfl rfl
    have h := failLoad_spec (p := p) hcounted.layout.result t l .reservationLeased
    have hp := (hcounted.calls.ok t _ hc).1
    exact ⟨.after_quiet (Quiet.modifyStats rfl rfl rfl rfl)
      (h.frame hcounted.layout hp ⟨_, hc, rfl⟩), h.byRecency⟩
  | duplicate settled found =>
    rcases hf with hrun | ⟨error, hthrew, hext⟩
    · cases hrun
    · cases hthrew; cases hext
  | published settled published =>
    refine absurd ?_ (hcopy d l 0)
    rw [published.calls, find?_insert_self]

theorem CopyFinished.not_failing (h : CopyFinished p s t d l r) : ¬ r.2.Failing := by
  rintro (hrun | ⟨error, hthrew, hext⟩)
  · cases h with
    | threw touched => cases hrun
    | leased touched => cases hrun
  · cases h with
    | threw touched =>
      cases hthrew
      rw [touched.internal _ rfl] at hext; cases hext
    | leased touched => cases hthrew

/-- **The steps of a failing call** touch no entry, no byte of the arena, no other reservation. -/
theorem Stepped.kept (h : Stepped p s a r) (hi : Inv p s) (ht : a.thread? = some t)
    (hf : r.2.Failing) (hcopy : ∀ d l n, r.1.calls.find? t ≠ some (.copying d l n)) :
    Kept p t a s r.1 := by
  cases h with
  | acquire outside acquired => cases ht; exact acquired.kept hf
  | wake call entering attempted =>
    cases ht
    obtain ⟨hframe, horder⟩ := attempted.frame hi hf
    exact hframe.kept horder
  | @join _ d l r call done joined =>
    cases ht
    cases joined with
    | failed found =>
      have h := @dropLoad_spec (s.leave t) l (hi.layout.result l)
      exact ((leave_sameOrder s t).trans h.toSameOrder).frame.kept h.byRecency
    | hit none hit => exact absurd hf hit.not_failing
  | @readExtent _ d l n x call extent =>
    cases ht
    obtain ⟨hp, -, hd, -⟩ := hi.calls.ok t _ call
    have hin := destination_in hi hd extent (le_refl x.length)
    refine (frame_of_stage_write hi call rfl hp (Nat.le_add_right _ _) ?_).kept rfl
    rw [length_extentBytes]; exact hin
  | @readThrows _ d l n x junk text call extent short =>
    cases ht
    obtain ⟨hp, -, hd, -⟩ := hi.calls.ok t _ call
    have hin := destination_in hi hd extent short
    exact (frame_of_stage_write hi call rfl hp (Nat.le_add_right _ _) hin).kept rfl
  | @finishRead _ d l r call finished =>
    cases ht
    have hq := addBytesRead_quiet p s d (p.descriptor d).extents.length
    obtain ⟨hframe, horder⟩ := finished.kept (hi.addBytesRead _ _) call hf hcopy
    exact (Frame.after_quiet hq hframe).kept horder
  | @readFailed _ d l n error call =>
    cases ht
    have hi' := hi.addBytesRead d n
    have h := failLoad_spec (p := p) hi'.layout.result t l error
    have hframe := h.frame hi'.layout (hi'.calls.ok t _ call).1 ⟨_, call, rfl⟩
    exact (Frame.after_quiet (addBytesRead_quiet p s d n) hframe).kept h.byRecency
  | copyByte call more =>
    cases ht
    exact absurd (find?_insert_self _ _ _) (hcopy _ _ _)
  | finishCopy call finished => exact absurd hf finished.not_failing
  | tryAcquire acquired => cases ht
  | erase key => cases ht
  | clear => cases ht
  | release found => cases ht

/-- The step of a thread inside a call, by what the call is about to do. -/
def Call.Steps (p : Params) (s : State) (t : Tid) (a : Action) (r : State × Outcome) : Call → Prop
  | .admission d => Attempted p s t d r
  | .coalesced d l => a = .join t ∧ ((s.loads l).state = .ready ∨ (s.loads l).state = .failed) ∧
      Joined p s t d l r
  | .reading d l _ => r.2 = .running ∨
      ReadFinished p (s.addBytesRead p d (p.descriptor d).extents.length) t d l r
  | .readFailed d l n error => r = (s.addBytesRead p d n).failLoad p t l error
  | .copying d l _ => r.2 = .running ∨ CopyFinished p s t d l r

theorem Stepped.of_call (h : Stepped p s a r) (ht : a.thread? = some t) {c}
    (hc : s.calls.find? t = some c) : c.Steps p s t a r := by
  cases h with
  | acquire outside acquired => cases ht; cases outside.symm.trans hc
  | wake call entering attempted => cases ht; cases call.symm.trans hc; exact attempted
  | join call done joined => cases ht; cases call.symm.trans hc; exact ⟨rfl, done, joined⟩
  | readExtent call extent => cases ht; cases call.symm.trans hc; exact .inl rfl
  | readThrows call extent short => cases ht; cases call.symm.trans hc; exact .inl rfl
  | finishRead call finished => cases ht; cases call.symm.trans hc; exact .inr finished
  | readFailed call => cases ht; cases call.symm.trans hc; rfl
  | copyByte call more => cases ht; cases call.symm.trans hc; exact .inl rfl
  | finishCopy call finished => cases ht; cases call.symm.trans hc; exact .inr finished
  | tryAcquire acquired => cases ht
  | erase key => cases ht
  | clear => cases ht
  | release found => cases ht

/-! ## What the last step gives back -/

/-- A load that is over, with the state and error it ended in. -/
structure Ended (p : Params) (s : State) (l : LoadId) (phase : Phase)
    (cause : Option CacheError) : Prop where
  known : l < s.next
  gone : ¬ s.Pending p l
  phase_eq : (s.loads l).state = phase
  cause_eq : (s.loads l).error = cause

/-- Everything the load had reserved is free again. -/
structure GivenBack (p : Params) (s u : State) (l : LoadId) : Prop where
  gone : ¬ u.Pending p l
  unmarked : ∀ e, u.Resident p e → (u.heap e).reservedBy ≠ some l
  reservedBytes : u.stats.reservedBytes + s.bytesOf p l = s.stats.reservedBytes
  stagingUsedBytes : u.stats.stagingUsedBytes + s.bytesOf p l = s.stats.stagingUsedBytes

theorem Failed.givenBack (h : Failed p s u t l error) (hi : Inv p s) (hp : s.Pending p l) :
    GivenBack p s u l ∧ Ended p u l .failed (some error) := by
  have hgone : ¬ u.Pending p l := fun hu => ((h.pending hi.layout hp l).mp hu).2 rfl
  have hlayout := h.layout hi.layout hp
  have hsum : s.bytesOf p l ≤ s.pending.sumBy fun _ m => s.bytesOf p m :=
    le_sumBy (fun _ m => s.bytesOf p m) hp
  refine ⟨⟨hgone, fun e he hmark => hgone (hlayout.reserved e l he hmark).1, ?_, ?_⟩, ?_⟩
  · rw [h.reservedBytes, hi.counters.reserved, u64Sub_of_le hsum, Nat.sub_add_cancel hsum]
  · rw [h.stagingUsedBytes, hi.counters.staging, u64Sub_of_le hsum, Nat.sub_add_cancel hsum]
  · exact ⟨by rw [h.next]; exact hi.layout.load_fresh l hp, hgone, h.failed.1, h.failed.2⟩

theorem Stepped.failed (h : Stepped p s a r) (hi : Inv p s) (ht : a.thread? = some t)
    (hthrew : r.2 = .threw error) (hext : error.isInternal = false) (hown : s.Owns t l) :
    ∃ w, Quiet s w ∧ Inv p w ∧ Failed p w r.1 t l error := by
  obtain ⟨c, hc, ho⟩ := hown
  have hstep := h.of_call ht hc
  cases c with
  | admission d => cases ho
  | coalesced d m => cases ho
  | reading d m n =>
    cases ho
    have hq := addBytesRead_quiet p s d (p.descriptor d).extents.length
    have hi' := hi.addBytesRead d (p.descriptor d).extents.length
    rcases hstep with hrun | finished
    · cases hrun.symm.trans hthrew
    cases finished with
    | leasedAway leased =>
      cases hthrew
      have hcounted : Inv p ((s.addBytesRead p d (p.descriptor d).extents.length).modifyStats
          fun x => { x with pinnedCapacityFailures := x.pinnedCapacityFailures + 1 }) :=
        hi'.count rfl rfl rfl rfl
      exact ⟨_, hq.trans (Quiet.modifyStats rfl rfl rfl rfl), hcounted,
        failLoad_spec hcounted.layout.result t l _⟩
    | duplicate settled found => cases hthrew; cases hext
    | published settled published => cases hthrew
  | readFailed d m n error' =>
    cases ho
    cases hstep
    cases hthrew
    have hi' := hi.addBytesRead d n
    exact ⟨_, addBytesRead_quiet p s d n, hi', failLoad_spec hi'.layout.result t l _⟩
  | copying d m n =>
    rcases hstep with hrun | finished
    · cases hrun.symm.trans hthrew
    · exact absurd (.inr ⟨error, hthrew, hext⟩) finished.not_failing

theorem Stepped.givenBack (h : Stepped p s a r) (hi : Inv p s) (ht : a.thread? = some t)
    (hthrew : r.2 = .threw error) (hext : error.isInternal = false) (hown : s.Owns t l) :
    GivenBack p s r.1 l ∧ Ended p r.1 l .failed (some error) := by
  obtain ⟨w, hq, hw, hfailed⟩ := h.failed hi ht hthrew hext hown
  have hp := hi.calls.pending_of_owned hown
  obtain ⟨hback, hended⟩ := hfailed.givenBack hw ((hq.pending l).mpr hp)
  refine ⟨⟨hback.gone, hback.unmarked, ?_, ?_⟩, hended⟩
  · rw [← hq.bytesOf, ← hq.reservedBytes]; exact hback.reservedBytes
  · rw [← hq.bytesOf, ← hq.stagingUsedBytes]; exact hback.stagingUsedBytes

/-! ## A load that is over stays as it ended -/

section Ended
variable {phase : Phase} {cause : Option CacheError}

theorem Ended.same (h : Ended p s l phase cause) (hs : SameLayout s u) :
    Ended p u l phase cause :=
  ⟨by rw [hs.next]; exact h.known, fun hu => h.gone ((hs.pending l).mp hu),
    (hs.state l).trans h.phase_eq, (hs.error l).trans h.cause_eq⟩

theorem Ended.finished {m} (h : Ended p s l phase cause) (hf : Finished p s u t m) (hl : Layout p s)
    (hp : s.Pending p m) : Ended p u l phase cause := by
  have hne : l ≠ m := fun heq => h.gone (heq ▸ hp)
  exact ⟨by rw [hf.next]; exact h.known, fun hu => h.gone ((hf.pending hl hp l).mp hu).1,
    (hf.state l hne).trans h.phase_eq, (hf.error l hne).trans h.cause_eq⟩

theorem Ended.settled {m} (h : Ended p s l phase cause) (hs : Settled p s m w) :
    Ended p w l phase cause := by
  refine ⟨?_, fun hw => h.gone ((hs.pending l).mp hw), (hs.state l).trans h.phase_eq, ?_⟩
  · cases hs with
    | kept => exact h.known
    | moved => exact h.known
  · cases hs with
    | kept => exact h.cause_eq
    | moved => exact ((replan_spec s m _ _).error l).trans h.cause_eq

theorem Ended.published {m} (h : Ended p s l phase cause) (hp : s.Pending p m)
    (hpub : Published p s u t d m) : Ended p u l phase cause := by
  have hne : l ≠ m := fun heq => h.gone (heq ▸ hp)
  refine ⟨by rw [hpub.next]; exact h.known, fun hu => h.gone ((hpub.pending l).mp hu), ?_, ?_⟩
  · rw [hpub.load_of_ne hne]; exact h.phase_eq
  · rw [hpub.load_of_ne hne]; exact h.cause_eq

theorem Hit.sameLayout {e} (h : Hit p s e d r) : SameLayout s r.1 := by
  cases h with
  | threw touched => exact touched.reorders.quiet.toSameLayout
  | @leased u touched =>
    have hgrant := grant_sameOrder (u.modifyStats fun x => { x with hits := x.hits + 1 }) e d
    exact touched.reorders.quiet.toSameLayout.trans
      ((modifyStats_sameLayout u _).trans hgrant.toSameLayout)

theorem Attempted.ended (h : Attempted p s t d r) (hi : Inv p s) (he : Ended p s l phase cause) :
    Ended p r.1 l phase cause := by
  rcases h.layout_cases with ⟨e, hit⟩ | ⟨offset, victims, staged, hadm, rfl⟩ | ⟨hsame, -⟩
  · exact he.same ((leave_sameOrder s t).toSameLayout.trans hit.sameLayout)
  · have ha := @reserve_spec p s t d offset staged victims hadm.absent
    have hne : l ≠ s.next := he.known.ne
    refine ⟨Nat.lt_succ_of_lt he.known, ?_, ?_, ?_⟩
    · intro hu
      exact ((ha.pending hi.layout hadm.absent l).mp hu).elim he.gone hne
    · rw [ha.load l hne]; exact he.phase_eq
    · rw [ha.load l hne]; exact he.cause_eq
  · exact he.same hsame

theorem Retired.ended {gone} (h : Retired p s u gone) (he : Ended p s l phase cause) :
    Ended p u l phase cause := by
  rw [h.rest]
  exact ⟨he.known, he.gone, he.phase_eq, he.cause_eq⟩

theorem ReadFinished.ended {m} (h : ReadFinished p s t d m r) (hi : Inv p s)
    (hc : s.calls.find? t = some (.reading d m (p.descriptor d).extents.length))
    (he : Ended p s l phase cause) : Ended p r.1 l phase cause := by
  obtain ⟨hp, hs, -⟩ := hi.calls.ok t _ hc
  cases h with
  | leasedAway leased =>
    have hcounted : Inv p (s.modifyStats fun x => { x with
        pinnedCapacityFailures := x.pinnedCapacityFailures + 1 }) := hi.count rfl rfl rfl rfl
    exact (he.same (modifyStats_sameLayout s _)).finished
      (failLoad_spec hcounted.layout.result t m _).toFinished hcounted.layout hp
  | @duplicate w settled found =>
    have hw := settled.inv hi hp hs
    have hpw := (settled.pending m).mpr hp
    have hnot := (hw.layout.loading hpw ((settled.state m).trans hs)).1
    have hplaced := hw.placeResult hnot
    have hended : Ended p (w.placeResult m) l phase cause := by
      have hw' := he.settled settled
      exact ⟨hw'.known, fun h => hw'.gone ((placeResult_pending l).mp h), hw'.phase_eq,
        hw'.cause_eq⟩
    exact hended.finished (failLoad_spec hplaced.layout.result t m _).toFinished hplaced.layout
      ((placeResult_pending m).mpr hpw)
  | published settled published =>
    exact (he.settled settled).published ((settled.pending m).mpr hp) published

theorem CopyFinished.ended {m} (h : CopyFinished p s t d m r) (hi : Inv p s)
    (hc : s.calls.find? t = some (.copying d m (p.descriptor d).bytes))
    (he : Ended p s l phase cause) : Ended p r.1 l phase cause := by
  have hp := (hi.calls.ok t _ hc).1
  cases h with
  | @threw u error touched =>
    have hq := touched.reorders.quiet
    have hu := hi.reorders touched.reorders
    exact (he.same hq.toSameLayout).finished (failLoad_spec hu.layout.result t m _).toFinished
      hu.layout ((hq.pending m).mpr hp)
  | @leased u touched =>
    have hq := touched.reorders.quiet
    have hu := hi.reorders touched.reorders
    have herror : (u.loads m).error = none := (hq.error m).trans (hi.layout.load_error m hp)
    exact (he.same hq.toSameLayout).finished
      (complete_spec (fun i => hu.layout.result i) herror t d).toFinished hu.layout
      ((hq.pending m).mpr hp)

theorem Stepped.ended (h : Stepped p s a r) (hi : Inv p s) (he : Ended p s l phase cause) :
    Ended p r.1 l phase cause := by
  cases h with
  | acquire outside acquired =>
    cases acquired with
    | null => exact he
    | tooLarge large =>
      refine he.same ?_
      constructor <;> intros <;> rfl
    | reused found other => exact he
    | observeThrew observed =>
      exact he.same ((register_quiet p s _).trans observed.reorders.quiet).toSameLayout
    | @attempted d u r registered observe entering attempted =>
      have hobs := observe_spec registered.retention (p.descriptor d).key
      rw [observe] at hobs
      have hq := (register_quiet p s d).trans hobs.reorders.quiet
      exact attempted.ended (registered.reorders hobs.reorders) (he.same hq.toSameLayout)
  | wake call entering attempted => exact attempted.ended hi he
  | @join t d m r call done joined =>
    cases joined with
    | failed found =>
      have h := @dropLoad_spec (s.leave t) m (hi.layout.result m)
      exact he.same ((leave_sameOrder s t).trans h.toSameOrder).toSameLayout
    | @hit u o none hit =>
      obtain ⟨hres, hready, hd⟩ := hi.joined_ready call done none
      have hu := hit.inv hi hres hready hd
      have h := @dropLoad_spec (u.leave t) m (hu.layout.result m)
      exact (he.same hit.sameLayout).same
        ((leave_sameOrder u t).trans h.toSameOrder).toSameLayout
  | readExtent call extent => exact he.same (stage_write_progress s _ _ _ _).toSameLayout
  | readThrows call extent short => exact he.same (stage_write_progress s _ _ _ _).toSameLayout
  | finishRead call finished =>
    exact finished.ended (hi.addBytesRead _ _) call
      (he.same (addBytesRead_quiet p s _ _).toSameLayout)
  | @readFailed t d m n error call =>
    have hi' := hi.addBytesRead d n
    exact (he.same (addBytesRead_quiet p s d n).toSameLayout).finished
      (failLoad_spec hi'.layout.result t m error).toFinished hi'.layout (hi'.calls.ok t _ call).1
  | copyByte call more => exact he.same (copyByte_progress s _ _ _ _).toSameLayout
  | finishCopy call finished => exact finished.ended hi call he
  | tryAcquire acquired =>
    cases acquired with
    | null => exact he
    | reused found other => exact he
    | empty misses => exact he
    | observeThrew observed => exact he.same observed.reorders.quiet.toSameLayout
    | hit same found ready observed hit =>
      exact he.same (observed.reorders.quiet.toSameLayout.trans hit.sameLayout)
  | erase key =>
    rcases eraseKey_cases hi key with heq | ⟨e, heq, hretired, -⟩
    · rw [heq]; exact he
    · rw [heq]; exact hretired.ended he
  | clear =>
    rcases clear_cases p s with heq | heq | ⟨heq, -⟩
    · rw [heq]; exact he
    · rw [heq]; exact he
    · rw [heq]; exact ⟨he.known, he.gone, he.phase_eq, he.cause_eq⟩
  | @release i x found => exact he.same (release_sameOrder s i x).toSameLayout

end Ended

/-! ## The calls of a run -/

variable {evs : List CacheEvent}

theorem call_kept {Q : Call → Prop} (hmove : ∀ c c', c.Next c' → Q c → Q c')
    (run : Trace (Step p) s evs u) (hi : Inv p s)
    (hrunning : ∀ ev ∈ evs, ev.label.1.thread? = some t → ev.label.2 = .running)
    (hq : ∃ c, s.calls.find? t = some c ∧ Q c) :
    (∃ c, u.calls.find? t = some c ∧ Q c) ∧
      ∀ ev ∈ evs, Inv p ev.before ∧ ∃ c, ev.before.calls.find? t = some c ∧ Q c := by
  have hrun := run.invariant_of (I := fun s => Inv p s ∧ ∃ c, s.calls.find? t = some c ∧ Q c)
    (C := fun ev => ev.label.1.thread? = some t → ev.label.2 = .running) ?_ hrunning ⟨hi, hq⟩
  · exact ⟨hrun.1.2, fun ev hev => (hrun.2 ev hev).1⟩
  · rintro s a s' ⟨hi, c, hc, hq⟩ hs hgo
    have hchange := ((step_cases hi hs).change hi).calls
    refine ⟨hi.step hs, ?_⟩
    by_cases ht : a.1.thread? = some t
    · obtain ⟨c', hc', hnext⟩ := hchange.moves ht (hgo ht) hc
      exact ⟨c', hc', hmove c c' hnext hq⟩
    · exact ⟨c, (hchange.other ht).trans hc, hq⟩

theorem Joined.threw (h : Joined p s t d l r) (herror : (s.loads l).error = some error) :
    r.2 = .threw error := by
  cases h with
  | failed found => rw [herror] at found; cases found; rfl
  | hit none hit => rw [herror] at none; cases none

theorem waiter_kept (run : Trace (Step p) s evs u) (hi : Inv p s)
    (hpending : ∀ ev ∈ evs, ev.before.Pending p l)
    (hc : s.calls.find? t = some (.coalesced d l)) : u.calls.find? t = some (.coalesced d l) := by
  have hrun := run.invariant_of (I := fun s => Inv p s ∧ s.calls.find? t = some (.coalesced d l))
    (C := fun ev => ev.before.Pending p l) ?_ hpending ⟨hi, hc⟩
  · exact hrun.1.2
  · rintro s a s' ⟨hi, hc⟩ hs hp
    have hstep := step_cases hi hs
    refine ⟨hi.step hs, ?_⟩
    by_cases ht : a.1.thread? = some t
    · obtain ⟨-, hdone, -⟩ := hstep.of_call ht hc
      change s.Pending p l at hp
      rcases hi.layout.load_phase l hp with hload | hcopy
      · rw [hload.1] at hdone; simp at hdone
      · rw [hcopy.1] at hdone; simp at hdone
    · exact ((hstep.change hi).calls.other ht).trans hc

/-- Whatever happens next, the thread's own next step throws `error`, and it can
take that step at once. -/
structure Receives (p : Params) (u : State) (t : Tid) (error : CacheError) : Prop where
  enabled : ∃ v, step p u (.join t) = some (v, .threw error)
  only : ∀ evs v, Trace (Step p) u evs v → ∀ pre ev post, evs = pre ++ ev :: post →
    (∀ x ∈ pre, x.label.1.thread? ≠ some t) → ev.label.1.thread? = some t →
      ev.label = (.join t, .threw error)

/-- **A caller coalesced onto a failed load receives its error.** -/
theorem Ended.received (h : Ended p u l .failed (some error)) (hi : Inv p u)
    (hc : u.calls.find? t = some (.coalesced d l)) : Receives p u t error := by
  constructor
  · refine ⟨(u.leave t).dropLoad l, ?_⟩
    simp only [step, resume, hc, h.phase_eq, joinResult, h.cause_eq, or_true, if_true]
  · intro evs v run pre ev post heq hquiet ht
    rw [heq] at run
    obtain ⟨w, hpre, hrest⟩ := run.split
    -- until its own step the thread waits, and the load stays as it ended
    have hkept := hpre.invariant_of (I := fun s => Inv p s ∧
        s.calls.find? t = some (.coalesced d l) ∧ Ended p s l .failed (some error))
      (C := fun ev => ev.label.1.thread? ≠ some t) ?_ hquiet ⟨hi, hc, h⟩
    · obtain ⟨⟨hw, hcw, hew⟩, -⟩ := hkept
      cases hrest with
      | @cons _ a w' _ _ hs hpost =>
        obtain ⟨ha, -, hjoined⟩ := (step_cases hw hs).of_call ht hcw
        exact Prod.ext ha (hjoined.threw hew.cause_eq)
    · rintro s a s' ⟨hi, hc, he⟩ hs hne
      have hstep := step_cases hi hs
      exact ⟨hi.step hs, ((hstep.change hi).calls.other hne).trans hc, hstep.ended hi he⟩

/-! ## Failing calls -/

/-- A run that is one call of `acquire` on `t` up to the exception it throws, among other threads.
-/
structure FailedCall (p : Params) (t : Tid) (s : State) (evs : List CacheEvent) (u : State)
    (error : CacheError) : Prop where
  run : Trace (Step p) s evs u
  enters : ∃ value, (evs.head?.map fun ev => ev.label.1) = some (.acquire t value)
  throws : ∃ pre last, evs = pre ++ [last] ∧ last.label.1.thread? = some t ∧
    last.label.2 = .threw error ∧
    ∀ ev ∈ pre, ev.label.1.thread? = some t → ev.label.2 = .running

theorem not_copying_of_failed {v : State} (run : Trace (Step p) s evs v) (hi : Inv p s)
    (hrunning : ∀ ev ∈ evs, ev.label.1.thread? = some t → ev.label.2 = .running)
    (hfinal : Stepped p v a r) (ht : a.thread? = some t) (hthrew : r.2 = .threw error)
    (hext : error.isInternal = false) (n : Nat) :
    s.calls.find? t ≠ some (.copying d l n) := by
  intro hc
  have hcopying := call_kept (Q := fun c => ∃ d l n, c = .copying d l n) ?_ run hi hrunning
    ⟨_, hc, d, l, n, rfl⟩
  · obtain ⟨⟨c, hcv, d', l', n', rfl⟩, -⟩ := hcopying
    rcases hfinal.of_call ht hcv with hgo | finished
    · cases hgo.symm.trans hthrew
    · exact finished.not_failing (.inr ⟨error, hthrew, hext⟩)
  · rintro c c' hnext ⟨d, l, n, rfl⟩
    cases hnext
    exact ⟨d, l, n + 1, rfl⟩

/-- **A call that throws is undone.** In every interleaving its steps keep the resident entries,
their order unless all frequencies age, and every other reservation; at the end its own is free
again, and every caller that had coalesced onto the load receives the same error. -/
theorem failed_acquire_is_undone (hs : Reached p s) (h : FailedCall p t s evs u error)
    (hext : error.isInternal = false) :
    (∀ ev ∈ evs, ev.label.1.thread? = some t → Kept p t ev.label.1 ev.before ev.after) ∧
    ∀ ev ∈ evs, ∀ l, ev.after.Owns t l →
      (∀ last, evs.getLast? = some last → GivenBack p last.before u l) ∧
      ∀ i d, ev.after.calls.find? i = some (.coalesced d l) → Receives p u i error := by
  obtain ⟨pre, last, rfl, hlast, hthrew, hrunning⟩ := h.throws
  obtain ⟨v, hpre, hend⟩ := h.run.split
  obtain ⟨hv, hinv⟩ := hpre.invariant (I := Inv p) (fun _ _ _ hi hs => hi.step hs) hs.inv
  cases hend with
  | @cons _ a u _ _ hstep hnil =>
  cases hnil
  have hfinal := step_cases hv hstep
  have hout : u.calls.find? t = none := by
    refine (hfinal.change hv).calls.out hlast ?_
    rw [hthrew]; intro h; cases h
  -- the steps of the call before its last one
  have hrest : ∀ ev ∈ pre, ∃ post, Trace (Step p) ev.after post v ∧
      ∀ x ∈ post, x.label.1.thread? = some t → x.label.2 = .running := by
    intro ev hev
    obtain ⟨pre', post, rfl, -, -, hpost⟩ := hpre.of_mem hev
    exact ⟨post, hpost, fun x hx => hrunning x (by simp [hx])⟩
  refine ⟨?_, ?_⟩
  · intro ev hev ht
    rcases List.mem_append.mp hev with hev | hev
    · obtain ⟨hbefore, hafter, hs⟩ := hinv ev hev
      obtain ⟨post, hpost, hgo⟩ := hrest ev hev
      refine (step_cases hbefore hs).kept hbefore ht (.inl (hrunning ev hev ht)) ?_
      intro d l n
      exact not_copying_of_failed hpost hafter hgo hfinal hlast hthrew hext n
    · cases List.mem_singleton.mp hev
      refine hfinal.kept hv ht (.inr ⟨error, hthrew, hext⟩) fun d l n hc => ?_
      rw [hout] at hc; cases hc
  · intro ev hev l hown
    rcases List.mem_append.mp hev with hev | hev
    · obtain ⟨hbefore, hafter, hs⟩ := hinv ev hev
      obtain ⟨post, hpost, hgo⟩ := hrest ev hev
      obtain ⟨hvown, howned⟩ : v.Owns t l ∧ ∀ x ∈ post, Inv p x.before ∧ x.before.Owns t l :=
        call_kept (fun _ _ hn ho => hn.owned ho) hpost hafter hgo hown
      obtain ⟨hback, hended⟩ := hfinal.givenBack hv hlast hthrew hext hvown
      refine ⟨?_, ?_⟩
      · intro last' hlast'
        rw [List.getLast?_concat] at hlast'
        cases hlast'
        exact hback
      · intro i d hc
        have hwait := waiter_kept hpost hafter
          (fun x hx => (howned x hx).1.calls.pending_of_owned (howned x hx).2) hc
        have hne : a.1.thread? ≠ some i := by
          intro ha
          obtain ⟨c, hcv, ho⟩ := hvown
          rw [hlast] at ha
          cases ha
          rw [hwait] at hcv; cases hcv; cases ho
        exact hended.received (hv.step hstep) (((hfinal.change hv).calls.other hne).trans hwait)
    · cases List.mem_singleton.mp hev
      obtain ⟨c, hc, -⟩ := hown
      rw [hout] at hc; cases hc

theorem FailedCall.of_labels (labels : List (Action × Outcome)) (run : Trace (Step p) s evs u)
    (hlabels : evs.map (fun ev => ev.label) = labels ++ [(a, .threw error)])
    (henters : ∃ value, (labels ++ [(a, Outcome.threw error)]).head?.map Prod.fst =
      some (.acquire t value))
    (ht : a.thread? = some t) (hrunning : ∀ x ∈ labels, x.1.thread? = some t → x.2 = .running) :
    FailedCall p t s evs u error := by
  refine ⟨run, ?_, ?_⟩
  · rw [← hlabels, List.head?_map, map_map] at henters
    exact henters
  · obtain ⟨pre, rest, rfl, hpre, hrest⟩ := List.map_eq_append_iff.mp hlabels
    obtain ⟨last, tail, rfl, hlast, htail⟩ := List.map_eq_cons_iff.mp hrest
    cases List.map_eq_nil_iff.mp htail
    refine ⟨pre, last, rfl, by rw [hlast]; exact ht, by rw [hlast], ?_⟩
    intro ev hev hown
    exact hrunning ev.label (hpre ▸ List.mem_map_of_mem hev) hown

def failingRead : List (Action × Outcome) :=
  [(.acquire 0 (some 3), .running), (.acquire 1 (some 3), .running),
    (.readThrows 0 [] "disk", .running), (.finishRead 0, .threw (.readFailed "disk"))]

theorem failed_read_in_tinyCache :
    ∃ evs u, evs.map (fun ev => ev.label) = failingRead ∧
      FailedCall (tinyCache true) 0 (.initial zeroed zeroed) evs u (.readFailed "disk") ∧
      ¬ u.Pending (tinyCache true) 0 ∧ Receives (tinyCache true) u 1 (.readFailed "disk") := by
  have hrun : ((exec (tinyCache true) (.initial zeroed zeroed) (failingRead.map Prod.fst)).any
      fun r => decide (r.1.map (fun ev => ev.label) = failingRead) && r.1[1]?.any fun ev =>
        decide (ev.after.calls.find? 0 = some (.reading 3 0 0)) &&
        decide (ev.after.calls.find? 1 = some (.coalesced 3 0))) = true := by
    decide +kernel
  obtain ⟨⟨evs, u⟩, hexec, hall⟩ := (any_eq_true _ _).mp hrun
  simp only [Bool.and_eq_true, decide_eq_true_eq] at hall
  obtain ⟨hlabels, hev⟩ := hall
  obtain ⟨ev, hget, hcalls⟩ := (any_eq_true _ _).mp hev
  simp only [Bool.and_eq_true, decide_eq_true_eq] at hcalls
  have hfailed : FailedCall (tinyCache true) 0 (.initial zeroed zeroed) evs u
      (.readFailed "disk") :=
    .of_labels (failingRead.take 3) (exec_trace hexec) hlabels ⟨some 3, rfl⟩ rfl (by decide)
  have hundone := failed_acquire_is_undone
    (.of_init ⟨zeroed, zeroed, rfl⟩) hfailed rfl
  obtain ⟨hback, hwaiters⟩ := hundone.2 ev (List.mem_of_getElem? hget) 0 ⟨_, hcalls.1, rfl⟩
  obtain ⟨pre, last, hevs, -⟩ := hfailed.throws
  refine ⟨evs, u, hlabels, hfailed, (hback last ?_).gone, hwaiters 1 3 hcalls.2⟩
  rw [hevs, List.getLast?_concat]

/-! ## Aging

A failing call still observes its key, and every 16384th observation halves all
frequencies and sorts the entries anew. -/

/-- A known key asked for in a full cache without fills in flight. -/
structure State.Full (p : Params) (s : State) (t : Tid) (d : DescId) : Prop where
  outside : s.calls.find? t = none
  known : s.canonical.find? (p.descriptor d).key = some d
  missing : s.entries.find? (p.descriptor d).key = none
  quiet : s.pending.isEmpty = true
  noRoom : s.allocationPlan p (p.descriptor d).bytes none = .ok none
  small : (p.descriptor d).bytes ≤ p.config.capacityBytes ∧
    (p.descriptor d).bytes ≤ p.config.stagingBytes ∧ (p.descriptor d).bytes ≤ u64Max

def State.attempts (p : Params) (s : State) (d : DescId) (n : Nat) : State :=
  let key := (p.descriptor d).key
  { s with
    frequencyClock := s.frequencyClock + n
    observations := s.observations.insert key (min ((s.observations.find? key).getD 0 + n) 64)
    stats := { s.stats with pinnedCapacityFailures := s.stats.pinnedCapacityFailures + n } }

theorem attempt_full (hentries : s.entries.find? (p.descriptor d).key = none)
    (hempty : s.pending.isEmpty = true)
    (hplan : s.allocationPlan p (p.descriptor d).bytes none = .ok none) (t : Tid) :
    s.attempt p t d = ((s.modifyStats fun x => { x with
      pinnedCapacityFailures := x.pinnedCapacityFailures + 1 }).leave t,
      .threw .allCandidatesLeased) := by
  have hpending := isEmpty_iff.mp hempty (p.descriptor d).key
  simp only [attempt, hentries, filter_none, hpending, admitLoad, hplan, hempty,
    if_true]

theorem State.Full.step (h : s.Full p t d) (hfr : p.config.frequencyRetention = true)
    (hages : ¬ s.Ages p) :
    Step p s (.acquire t (some d), .threw .allCandidatesLeased) (s.attempts p d 1) := by
  have hsize : ¬ ((p.descriptor d).bytes > p.config.capacityBytes ∨
      (p.descriptor d).bytes > p.config.stagingBytes ∨ (p.descriptor d).bytes > u64Max) := by
    have := h.small; omega
  have hclock : ¬ (s.frequencyClock + 1) % 16384 = 0 := fun hc => hages ⟨hfr, hc⟩
  have hcanon : s.canonical.emplace (p.descriptor d).key d = s.canonical := by
    rw [emplace, contains, h.known]; rfl
  have hattempt := @attempt_full p
    (({ s with frequencyClock := s.frequencyClock + 1 } : State).count (p.descriptor d).key) d
    h.missing h.quiet h.noRoom t
  simp only [Step, RamCache.step, h.outside, acquire, if_neg hsize, h.known, getD_some,
    ne_eq, not_true_eq_false, if_false, hcanon, observe, hfr, if_true, hclock]
  rw [hattempt]
  simp only [leave, modifyStats, attempts, count,
    erase_of_none h.outside]

theorem State.Full.attempts (h : s.Full p t d) (n : Nat) : (s.attempts p d n).Full p t d :=
  ⟨h.outside, h.known, h.missing, h.quiet, h.noRoom, h.small⟩

theorem attempts_succ (p : Params) (s : State) (d : DescId) (n : Nat) :
    (s.attempts p d n).attempts p d 1 = s.attempts p d (n + 1) := by
  have hcount : ∀ c, min (min (c + n) 64 + 1) 64 = min (c + (n + 1)) 64 := by omega
  simp only [attempts, find?_insert_self, getD_some, insert_insert,
    hcount, Nat.add_assoc]

theorem State.Full.reached (h : s.Full p t d) (hfr : p.config.frequencyRetention = true)
    (hs : Reached p s) {n} (hn : s.frequencyClock + (n + 1) < 16384) :
    Reached p (s.attempts p d (n + 1)) := by
  induction n with
  | zero =>
    refine hs.next (h.step hfr fun hages => ?_)
    have := hages.2
    omega
  | succ n ih =>
    have hstep := (h.attempts (n + 1)).step hfr (fun hages => ?_)
    · rw [attempts_succ] at hstep
      exact (ih (by omega)).next hstep
    · have hclock : (s.frequencyClock + (n + 1) + 1) % 16384 = 0 := hages.2
      omega

/-- Two leased entries, the less frequent one more recent, leave no room for a third key. -/
def pinning : List Action :=
  loadSteps 0 0 ++ [.finishCopy 0, .acquire 0 (some 0), .acquire 0 (some 0)] ++
    loadSteps 0 1 ++ [.finishCopy 0, .acquire 0 (some 1), .acquire 2 (some 2)]

/-- The call of the 16384th observation fails, and reverses the order of the two entries. -/
theorem failed_acquire_reverses_order :
    ∃ s evs u, Reached (tinyCache true) s ∧
      FailedCall (tinyCache true) 2 s evs u .allCandidatesLeased ∧
      s.byRecency = [1, 0] ∧ u.byRecency = [0, 1] := by
  have hrun : ((exec (tinyCache true) (.initial zeroed zeroed) pinning).any fun r =>
      decide (r.2.frequencyClock = 6) && decide (r.2.calls.find? 2 = none) &&
      decide (r.2.canonical.find? ⟨0, 2, .gate⟩ = some 2) &&
      decide (r.2.entries.find? ⟨0, 2, .gate⟩ = none) && r.2.pending.isEmpty &&
      (match r.2.allocationPlan (tinyCache true) 1 none with | .ok none => true | _ => false) &&
      decide (r.2.byRecency = [1, 0]) &&
      (step (tinyCache true) (r.2.attempts (tinyCache true) 2 16377) (.acquire 2 (some 2))).any
        fun u => decide (u.1.byRecency = [0, 1]) &&
          decide (u.2 = .threw .allCandidatesLeased)) = true := by
    decide +kernel
  obtain ⟨⟨evs, s⟩, hexec, hall⟩ := (any_eq_true _ _).mp hrun
  simp only [Bool.and_eq_true, decide_eq_true_eq] at hall
  obtain ⟨⟨⟨⟨⟨⟨⟨hclock, hcalls⟩, hcanon⟩, hentries⟩, hempty⟩, hplan⟩, horder⟩, hlast⟩ := hall
  obtain ⟨⟨u, o⟩, hstep, hu⟩ := (any_eq_true _ _).mp hlast
  simp only [Bool.and_eq_true, decide_eq_true_eq] at hu
  obtain ⟨hu, rfl⟩ := hu
  have hfull : s.Full (tinyCache true) 2 2 := by
    refine ⟨hcalls, hcanon, hentries, hempty, ?_, by decide⟩
    show s.allocationPlan (tinyCache true) 1 none = _
    split at hplan
    next h => exact h
    · cases hplan
  have hreached : Reached (tinyCache true) (s.attempts (tinyCache true) 2 16377) :=
    hfull.reached rfl ⟨_, evs, ⟨zeroed, zeroed, rfl⟩, exec_trace hexec⟩ (by omega)
  have hs : Step (tinyCache true) (s.attempts (tinyCache true) 2 16377)
      (.acquire 2 (some 2), .threw .allCandidatesLeased) u := hstep
  exact ⟨_, _, u, hreached, .of_labels [] (.cons hs (.nil u)) rfl ⟨some 2, rfl⟩ rfl (by simp),
    horder, hu⟩

end ExpertStreaming.RamCache
