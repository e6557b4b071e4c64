import ExpertStreaming.Rebalance.Task
import ExpertStreaming.Lib.Fallible

/-! # A rebalance is atomic

Up to the lock every pool is untouched, prepared or published, and its contract says
what freeing its handle leaves. A failed task therefore ends with every pool, the slots and
the plan as before, a finished one with all of them at the target, and no task ends in
between or aborts.
-/
namespace ExpertStreaming.Rebalance

open Lib Function

variable {pools : Part → TwoPhase}

/-! ## Undoing -/

/-- Freeing the handle, if there is one, leaves this value and no open change. -/
def Settles (P : TwoPhase) (value : P.Live) (s : P.State) : Bool → Prop
  | true => P.phase s ≠ .idle ∧ (if P.phase s = .published then P.base s else P.live s) = value
  | false => P.phase s = .idle ∧ P.live s = value

def SameBeside (s s' : Server pools) : Prop := { s' with pool := s.pool } = s

variable {s s₀ : Server pools} {p : Part} {w : World pools} {r r' : Run pools}
  {value : (p : Part) → (pools p).Live} {task : Task pools}

theorem SameBeside.trans {s' s''} (h : SameBeside s s') (h' : SameBeside s' s'') :
    SameBeside s s'' := by
  obtain ⟨_, _, _, _, _, _⟩ := s
  obtain ⟨_, _, _, _, _, _⟩ := s'
  obtain ⟨_, _, _, _, _, _⟩ := s''
  simp only [SameBeside, Server.mk.injEq, true_and] at h h' ⊢
  obtain ⟨rfl, rfl, rfl, rfl, rfl⟩ := h
  exact h'

theorem SameBeside.eq_on {β : Type} {s'} (h : SameBeside s s') (f : Server pools → β)
    (hf : ∀ s pool, f { s with pool := pool } = f s) : f s' = f s :=
  (hf s' s.pool).symm.trans (congrArg f h)

theorem sameBeside_setPool (r : Run pools) (p : Part) (state : (pools p).State) :
    SameBeside r.server (r.setPool p state).server := rfl

theorem pool_setPool_self (r : Run pools) (p : Part) (state : (pools p).State) :
    (r.setPool p state).server.pool p = state := Function.update_self ..

theorem pool_setPool_of_ne (r : Run pools) {q} (hne : q ≠ p) (state : (pools p).State) :
    (r.setPool p state).server.pool q = r.server.pool q := Function.update_of_ne hne ..

theorem forall_setPool {Q : (q : Part) → (pools q).State → Prop} {state : (pools p).State}
    (hp : Q p state) (h : ∀ q, q ≠ p → Q q (r.server.pool q)) (q : Part) :
    Q q ((r.setPool p state).server.pool q) := by
  by_cases hne : q = p
  · subst hne
    rwa [pool_setPool_self]
  · rw [pool_setPool_of_ne r hne]
    exact h q hne

theorem clearPool_spec
    (h : ∀ q, Settles (pools q) (value q) (r.server.pool q) (r.handle q)) (p : Part) :
    ∃ r', clearPool w r p = some r' ∧ SameBeside r.server r'.server ∧ r'.handle p = false ∧
      (∀ q, r.handle q = false → r'.handle q = false) ∧
      ∀ q, Settles (pools q) (value q) (r'.server.pool q) (r'.handle q) := by
  unfold clearPool
  cases hhandle : r.handle p with
  | false => exact ⟨r, rfl, rfl, hhandle, fun _ hq => hq, h⟩
  | true =>
    have hp := h p
    rw [hhandle] at hp
    obtain ⟨hok, hidle, hlive⟩ := (pools p).free_done (c := w.choice p .free) hp.1
    simp only [if_true, hok, Bool.true_eq_false, and_false, if_false]
    refine ⟨_, rfl, sameBeside_setPool r p _, update_self .., fun q hq => ?_,
      forall_setPool (Q := fun q s => Settles (pools q) (value q) s (update r.handle p
        false q)) ?_ fun q hne => ?_⟩
    · simp [update_apply, hq]
    · rw [update_self]
      exact ⟨hidle, hlive.trans hp.2⟩
    · rw [update_of_ne hne]
      exact h q

/-- **Clearing the scope settles every pool.** -/
theorem clear_spec (h : ∀ p, Settles (pools p) (value p) (r.server.pool p) (r.handle p)) :
    ∃ r', clear w r = some r' ∧ SameBeside r.server r'.server ∧
      ∀ p, (pools p).phase (r'.server.pool p) = .idle ∧
        (pools p).live (r'.server.pool p) = value p := by
  obtain ⟨r₁, h₁, hsame₁, hdone₁, -, hsettles₁⟩ := clearPool_spec (w := w) h .transient
  obtain ⟨r₂, h₂, hsame₂, hdone₂, hkept₂, hsettles₂⟩ :=
    clearPool_spec (w := w) hsettles₁ .expert
  obtain ⟨r₃, h₃, hsame₃, hdone₃, hkept₃, hsettles₃⟩ :=
    clearPool_spec (w := w) hsettles₂ .kv
  refine ⟨r₃, ?_, (hsame₁.trans hsame₂).trans hsame₃, fun p => ?_⟩
  · simp [clear, undoOrder, List.foldlM, h₁, h₂, h₃]
  · have hhandle : r₃.handle p = false := by
      cases p with
      | kv => exact hdone₃
      | expert => exact hkept₃ _ hdone₂
      | transient => exact hkept₃ _ (hkept₂ _ hdone₁)
    have hp := hsettles₃ p
    rw [hhandle] at hp
    exact hp

/-- A run that can be taken back: its handles settle to the value before the task. -/
structure Reversible (s₀ : Server pools) (r : Run pools) : Prop where
  beside : SameBeside s₀ r.server
  settles : ∀ p, Settles (pools p) ((pools p).live (s₀.pool p)) (r.server.pool p) (r.handle p)
  published : ∀ p, r.published p = true → (pools p).phase (r.server.pool p) = .published

theorem rollBackPool_spec (acc : Run pools × Bool)
    (h : Reversible s₀ acc.1) (hok : acc.2 = true) (p : Part) :
    Reversible s₀ (rollBackPool w acc p).1 ∧ (rollBackPool w acc p).2 = true := by
  unfold rollBackPool
  cases hpublished : acc.1.published p with
  | false => exact ⟨h, hok⟩
  | true =>
    have hphase := h.published p hpublished
    obtain ⟨hdone, hrolled, hlive⟩ :=
      (pools p).rollback_done (c := w.choice p .rollback) hphase
    have hp := h.settles p
    cases hhandle : acc.1.handle p with
    | false =>
      -- a published change has a handle
      rw [hhandle] at hp
      cases hp.1.symm.trans hphase
    | true =>
      rw [hhandle] at hp
      have hbase := hp.2
      rw [if_pos hphase] at hbase
      simp only [if_true, hok, hdone, Bool.and_self, and_true]
      refine ⟨h.beside.trans (sameBeside_setPool _ p _), forall_setPool
        (Q := fun q s => Settles _ _ s (acc.1.handle q)) ?_ fun q _ => h.settles q, forall_setPool
        (Q := fun q s => update acc.1.published p false q = true → (pools q).phase s = _)
        (fun hq => ?_) fun q hne hq => h.published q ?_⟩
      · rw [hhandle]
        simp [Settles, hrolled, hlive, hbase]
      · rw [update_self] at hq
        cases hq
      · rwa [update_of_ne hne] at hq

theorem rollBack_spec (h : Reversible s₀ r) :
    Reversible s₀ (rollBack w r).1 ∧ (rollBack w r).2 = true := by
  obtain ⟨h₁, hok₁⟩ := rollBackPool_spec (w := w) (r, true) h rfl .transient
  obtain ⟨h₂, hok₂⟩ := rollBackPool_spec (w := w) _ h₁ hok₁ .expert
  exact rollBackPool_spec (w := w) _ h₂ hok₂ .kv

/-! ## Which tasks commit -/

/-- The points that a task comes to unless it stops before. -/
def reached (task : Task pools) : Point → Bool
  | .auditMemory | .auditPlacement | .auditSizing => task.replace .kv
  | .afterPrepare p | .afterPublish p => task.replace p
  | .reading | .beforeLogicalPublish | .lock => true

/-- No check, pool or point of the task fails. -/
structure NothingFails (task : Task pools) (w : World pools) (s : Server pools) : Prop where
  checked : check task w s = .ok ()
  faultless : ∀ point, reached task point = true → w.fault point = none
  manager : task.replace .transient = true → s.hasManager = true
  prepares : ∀ p, task.replace p = true →
    ((pools p).prepare (task.request p) (w.choice p .prepare) (s.pool p)).2 = true
  publishes : ∀ p, task.replace p = true → ((pools p).publish (w.choice p .publish)
    ((pools p).prepare (task.request p) (w.choice p .prepare) (s.pool p)).1).2 = true

def stateAt (task : Task pools) (w : World pools) (s : Server pools) (p : Part) :
    Bool → Bool → (pools p).State
  | false, false => s.pool p
  | true, false => ((pools p).prepare (task.request p) (w.choice p .prepare) (s.pool p)).1
  | _, true => ((pools p).publish (w.choice p .publish)
      ((pools p).prepare (task.request p) (w.choice p .prepare) (s.pool p)).1).1

def Prepares (task : Task pools) (w : World pools) (s : Server pools) (p : Part) : Prop :=
  task.replace p = true → (p = .transient → s.hasManager = true) ∧
    ((pools p).prepare (task.request p) (w.choice p .prepare) (s.pool p)).2 = true ∧
    ∀ point ∈ pointsAfterPrepare p, w.fault point = none

def Publishes (task : Task pools) (w : World pools) (s : Server pools) (p : Part) : Prop :=
  task.replace p = true →
    ((pools p).publish (w.choice p .publish) (stateAt task w s p true false)).2 = true ∧
    w.fault (.afterPublish p) = none

/-! ## The way to the lock -/

/-- A pool on the way: untouched, prepared for the request, or published. -/
inductive Ahead (P : TwoPhase) (before : P.Live) (request : P.Request) (s : P.State) :
    Bool → Bool → Prop
  | idle (phase : P.phase s = .idle) (live : P.live s = before) : Ahead P before request s false false
  | prepared (phase : P.phase s = .prepared) (live : P.live s = before) (base : P.base s = before)
      (aims : P.Meets (P.target s) request) : Ahead P before request s true false
  | published (phase : P.phase s = .published) (base : P.base s = before)
      (meets : P.Meets (P.live s) request) : Ahead P before request s true true

structure Midway (task : Task pools) (w : World pools) (s₀ : Server pools) (r : Run pools) :
    Prop where
  beside : SameBeside s₀ r.server
  ahead : ∀ p, Ahead (pools p) ((pools p).live (s₀.pool p)) (task.request p) (r.server.pool p)
    (r.handle p) (r.published p)
  state : ∀ p, r.server.pool p = stateAt task w s₀ p (r.handle p) (r.published p)

theorem Ahead.settles {P before request s handle published}
    (h : Ahead P before request s handle published) :
    Settles P before s handle := by
  cases h with
  | idle phase live => exact ⟨phase, live⟩
  | prepared phase live => simp [Settles, phase, live]
  | published phase base => simp [Settles, phase, base]

theorem Midway.reversible (h : Midway task w s₀ r) : Reversible s₀ r := by
  refine ⟨h.beside, fun p => (h.ahead p).settles, fun p hp => ?_⟩
  have hahead := h.ahead p
  rw [hp] at hahead
  generalize r.handle p = handle at hahead
  cases hahead with
  | published phase => exact phase

/-- What one step of the reversible part does: it goes on midway if `cond` holds, or stops in a
run that can be taken back. -/
structure Advances (task : Task pools) (w : World pools) (s₀ : Server pools)
    (out : Except (Stop × Run pools) (Run pools)) (handle published : Part → Bool) (cond : Prop) :
    Prop where
  goes : ∀ r, out = .ok r →
    cond ∧ Midway task w s₀ r ∧ r.handle = handle ∧ r.published = published
  stops : ∀ stop r, out = .error (stop, r) → ¬ cond ∧ Reversible s₀ r

theorem Advances.ok {cond} (h : Midway task w s₀ r) (hcond : cond) :
    Advances task w s₀ (.ok r) r.handle r.published cond :=
  ⟨fun _ heq => Except.ok.inj heq ▸ ⟨hcond, h, rfl, rfl⟩, fun _ _ heq => (nomatch heq)⟩

theorem Advances.stopped {stop handle published cond} (h : Reversible s₀ r) (hcond : ¬ cond) :
    Advances task w s₀ (.error (stop, r)) handle published cond :=
  ⟨fun _ heq => (nomatch heq),
    fun _ _ heq => (Prod.mk.inj (Except.error.inj heq)).2 ▸ ⟨hcond, h⟩⟩

theorem Advances.congr {out handle published cond cond'}
    (h : Advances task w s₀ out handle published cond) (hiff : cond ↔ cond') :
    Advances task w s₀ out handle published cond' :=
  propext hiff ▸ h

theorem pass_advances (points : List Point) (h : Midway task w s₀ r) :
    Advances task w s₀ (pass w points r) r.handle r.published
      (∀ point ∈ points, w.fault point = none) := by
  induction points with
  | nil => exact .ok h nofun
  | cons point rest ih =>
    rw [pass]
    cases hfault : w.fault point with
    | none => exact ih.congr (by simp [hfault])
    | some fault =>
      have hnot : ¬ ∀ point' ∈ point :: rest, w.fault point' = none := by simp [hfault]
      cases fault with
      | throws => exact .stopped h.reversible hnot
      | fails =>
        dsimp only
        split <;> exact .stopped h.reversible hnot

theorem Midway.update (h : Midway task w s₀ r) (handle published : Bool) (hp : Ahead (pools p)
      ((pools p).live (s₀.pool p)) (task.request p) (stateAt task w s₀ p handle published)
      handle published) :
    Midway task w s₀ { r.setPool p (stateAt task w s₀ p handle published) with
      handle := Function.update r.handle p handle
      published := Function.update r.published p published } := by
  refine ⟨h.beside.trans (sameBeside_setPool r p _), forall_setPool (Q := fun q s =>
    Ahead _ _ (task.request q) s (Function.update r.handle p handle q)
      (Function.update r.published p published q)) ?_ fun q hne => ?_, forall_setPool
    (Q := fun q s => s = stateAt task w s₀ q (Function.update r.handle p handle q)
      (Function.update r.published p published q)) ?_ fun q hne => ?_⟩
  · rwa [update_self, update_self]
  · rw [update_of_ne hne, update_of_ne hne]
    exact h.ahead q
  · rw [update_self, update_self]
  · rw [update_of_ne hne, update_of_ne hne]
    exact h.state q

theorem Reversible.setPool (h : Reversible s₀ r) {state}
    (hp : Settles (pools p) ((pools p).live (s₀.pool p)) state (r.handle p))
    (hpublished : r.published p = false) : Reversible s₀ (r.setPool p state) :=
  ⟨h.beside.trans (sameBeside_setPool r p state),
    forall_setPool (Q := fun q s => Settles _ _ s (r.handle q)) hp fun q _ => h.settles q,
    forall_setPool (Q := fun q s => r.published q = true → (pools q).phase s = _)
      (fun hq => (nomatch hpublished.symm.trans hq)) fun q _ => h.published q⟩

theorem preparePool_advances (h : Midway task w s₀ r) {handle published}
    (hhandle : r.handle = handle) (hpublished : r.published = published) (hp : handle p = false) :
    Advances task w s₀ (preparePool task w p r) (Function.update handle p (task.replace p))
      published (Prepares task w s₀ p) := by
  subst hhandle hpublished
  have hahead := h.ahead p
  have hstate := h.state p
  have hmanager : r.server.hasManager = s₀.hasManager :=
    h.beside.eq_on Server.hasManager fun _ _ => rfl
  rw [hp] at hahead hstate
  unfold preparePool
  split
  next hreplace =>
    split
    next hmissing =>
      exact .stopped h.reversible fun hc =>
        hmissing.2 (hmanager.trans ((hc hreplace).1 hmissing.1))
    next hthere =>
    dsimp only
    generalize hpublished : r.published p = published at hahead hstate
    cases hahead with
    | idle phase live =>
    split
    next hdone =>
      obtain ⟨hphase, hlive, hbase, haims⟩ := (pools p).prepare_done phase hdone
      rw [hstate] at hphase hlive hbase haims hdone live ⊢
      have hmidway := h.update (p := p) true false
        (.prepared hphase (hlive.trans live) (hbase.trans live) haims)
      rw [show update r.published p false = r.published by
        rw [← hpublished, update_eq_self]] at hmidway
      rw [hreplace]
      refine (pass_advances (pointsAfterPrepare p) hmidway).congr ?_
      refine ⟨fun hpoints _ => ⟨fun ht => ?_, hdone, hpoints⟩, fun hc => (hc hreplace).2.2⟩
      by_contra hnone
      exact hthere ⟨ht, hmanager ▸ hnone⟩
    next hfailed =>
    obtain ⟨hphase, hlive⟩ :=
      (pools p).prepare_failed phase (Bool.eq_false_of_not_eq_true hfailed)
    refine .stopped (h.reversible.setPool ?_ hpublished) fun hc => hfailed ?_
    · rw [hp]
      exact ⟨hphase, hlive.trans live⟩
    · rw [hstate]
      exact (hc hreplace).2.1
  next hreplace =>
    rw [Bool.eq_false_of_not_eq_true hreplace, ← hp, update_eq_self]
    exact .ok h fun hne => absurd hne hreplace

theorem publishPool_advances (h : Midway task w s₀ r) {handle published}
    (hhandle : r.handle = handle) (hpublished : r.published = published)
    (hp : handle p = task.replace p) (hnot : published p = false) :
    Advances task w s₀ (publishPool task w p r) handle
      (Function.update published p (task.replace p)) (Publishes task w s₀ p) := by
  subst hhandle hpublished
  have hahead := h.ahead p
  have hstate := h.state p
  rw [hnot] at hahead hstate
  unfold publishPool
  split
  next hreplace =>
    rw [hp, hreplace] at hahead hstate
    cases hahead with
    | prepared phase live base aims =>
    dsimp only
    split
    next hdone =>
      obtain ⟨hphase, hlive, hbase⟩ := (pools p).publish_done phase hdone
      rw [hstate] at hphase hlive hbase hdone base aims ⊢
      have hmidway := h.update (p := p) true true
        (.published hphase (hbase.trans base) (hlive ▸ aims))
      rw [show update r.handle p true = r.handle by
        rw [← hreplace, ← hp, update_eq_self]] at hmidway
      rw [hreplace]
      refine (pass_advances [.afterPublish p] hmidway).congr ?_
      exact ⟨fun hpoint _ => ⟨hdone, by simpa using hpoint⟩, fun hc => by simpa using (hc hreplace).2⟩
    next hfailed =>
    obtain ⟨hphase, hlive⟩ :=
      (pools p).publish_failed phase (Bool.eq_false_of_not_eq_true hfailed)
    refine .stopped (h.reversible.setPool ?_ hnot) fun hc => hfailed ?_
    · rw [hp, hreplace]
      simp [Settles, hphase, hlive, live]
    · rw [hstate]
      exact (hc hreplace).1
  next hreplace =>
    rw [Bool.eq_false_of_not_eq_true hreplace, ← hnot, update_eq_self]
    exact .ok h fun hne => absurd hne hreplace

theorem Advances.bind {out handle published cond handle' published' cond' f}
    (h : Advances task w s₀ out handle published cond)
    (hf : ∀ r, Midway task w s₀ r → r.handle = handle → r.published = published →
      Advances task w s₀ (f r) handle' published' cond') :
    Advances task w s₀ (out.bind f) handle' published' (cond ∧ cond') := by
  cases out with
  | error e =>
    obtain ⟨hnot, hback⟩ := h.stops e.1 e.2 rfl
    exact .stopped hback fun hc => hnot hc.1
  | ok r =>
    obtain ⟨hcond, hmidway, hhandle, hpublished⟩ := h.goes r rfl
    exact (hf r hmidway hhandle hpublished).congr ⟨fun hc => ⟨hcond, hc⟩, And.right⟩

theorem midway_start (task : Task pools)
    (hidle : ∀ p, (pools p).phase (s₀.pool p) = .idle) : Midway task w s₀ { server := s₀ } :=
  ⟨rfl, fun p => .idle (hidle p) rfl, fun _ => rfl⟩

theorem steps_go_iff (hchecked : check task w s₀ = .ok ()) :
    ((∀ point ∈ [Point.reading], w.fault point = none) ∧ Prepares task w s₀ .kv ∧
      Prepares task w s₀ .expert ∧ Prepares task w s₀ .transient ∧ Publishes task w s₀ .kv ∧
      Publishes task w s₀ .expert ∧ Publishes task w s₀ .transient ∧
      ∀ point ∈ [Point.beforeLogicalPublish, .lock], w.fault point = none) ↔
      NothingFails task w s₀ := by
  constructor
  · rintro ⟨hread, hkv, hexpert, htransient, hkv', hexpert', htransient', hend⟩
    have hprepares : ∀ p, Prepares task w s₀ p := fun p => by cases p <;> assumption
    have hpublishes : ∀ p, Publishes task w s₀ p := fun p => by cases p <;> assumption
    refine ⟨hchecked, fun point hreach => ?_, fun h => (htransient h).1 rfl,
      fun p hp => (hprepares p hp).2.1, fun p hp => (hpublishes p hp).1⟩
    cases point with
    | reading => exact hread _ (by simp)
    | auditMemory => exact (hkv hreach).2.2 _ (by simp [pointsAfterPrepare])
    | auditPlacement => exact (hkv hreach).2.2 _ (by simp [pointsAfterPrepare])
    | auditSizing => exact (hkv hreach).2.2 _ (by simp [pointsAfterPrepare])
    | afterPrepare p =>
      exact (hprepares p hreach).2.2 _ (by cases p <;> simp [pointsAfterPrepare])
    | afterPublish p => exact (hpublishes p hreach).2
    | beforeLogicalPublish => exact hend _ (by simp)
    | lock => exact hend _ (by simp)
  · intro h
    have hprepares : ∀ p, Prepares task w s₀ p := by
      intro p hp
      refine ⟨fun ht => h.manager (ht ▸ hp), h.prepares p hp, fun point hpoint => ?_⟩
      apply h.faultless
      cases p <;> simp only [pointsAfterPrepare, List.mem_cons, List.not_mem_nil, or_false]
        at hpoint
      · rcases hpoint with rfl | rfl | rfl | rfl <;> exact hp
      · exact hpoint ▸ hp
      · exact hpoint ▸ hp
    have hpublishes : ∀ p, Publishes task w s₀ p := fun p hp =>
      ⟨h.publishes p hp, h.faultless (.afterPublish p) hp⟩
    exact ⟨by simpa using h.faultless .reading rfl, hprepares _, hprepares _, hprepares _,
      hpublishes _, hpublishes _, hpublishes _,
      by simpa using ⟨h.faultless .beforeLogicalPublish rfl, h.faultless .lock rfl⟩⟩

/-- **Up to the lock**: if nothing fails every replaced pool and no other is published, and
otherwise the run can be taken back. -/
theorem reversible_advances (hchecked : check task w s₀ = .ok ())
    (hidle : ∀ p, (pools p).phase (s₀.pool p) = .idle) :
    Advances task w s₀ (reversible task w { server := s₀ }) task.replace task.replace
      (NothingFails task w s₀) := by
  have hall : ∀ start : Part → Bool, update (update (update start .kv
      (task.replace .kv)) .expert (task.replace .expert)) .transient (task.replace .transient) =
      task.replace := fun start => by
    funext p
    cases p <;> rfl
  unfold reversible
  refine Advances.congr ?_ (steps_go_iff hchecked)
  refine (pass_advances _ (midway_start task hidle)).bind fun r hr hh hp => ?_
  refine (preparePool_advances hr hh hp rfl).bind fun r hr hh hp => ?_
  refine (preparePool_advances hr hh hp rfl).bind fun r hr hh hp => ?_
  refine (preparePool_advances hr hh hp rfl).bind fun r hr hh hp => ?_
  rw [hall] at hh
  refine (publishPool_advances hr hh hp rfl rfl).bind fun r hr hh hp => ?_
  refine (publishPool_advances hr hh hp rfl rfl).bind fun r hr hh hp => ?_
  refine (publishPool_advances hr hh hp rfl rfl).bind fun r hr hh hp => ?_
  rw [hall] at hp
  have hend := pass_advances [.beforeLogicalPublish, .lock] hr
  rwa [hh, hp] at hend

/-! ## The logical publication -/

theorem finalizePool_spec
    (hp : task.replace p = true → (pools p).phase (r.server.pool p) = .published) :
    ∃ r', finalizePool task w r p = some r' ∧ SameBeside r.server r'.server ∧
      r'.handle = r.handle ∧ (∀ q, q ≠ p → r'.server.pool q = r.server.pool q) ∧
      (task.replace p = true → (pools p).phase (r'.server.pool p) = .finalized ∧
        (pools p).live (r'.server.pool p) = (pools p).live (r.server.pool p)) ∧
      (task.replace p = false → r'.server.pool p = r.server.pool p) := by
  unfold finalizePool
  cases hreplace : task.replace p with
  | false => exact ⟨_, rfl, rfl, rfl, fun _ _ => rfl, fun h => (nomatch h), fun _ => rfl⟩
  | true =>
    obtain ⟨hok, hphase, hlive⟩ :=
      (pools p).finalize_done (c := w.choice p .finalize) (hp hreplace)
    rw [if_pos rfl]
    dsimp only
    rw [if_pos hok]
    refine ⟨_, rfl, sameBeside_setPool r p _, rfl, fun q hne => pool_setPool_of_ne r hne _,
      fun _ => ?_, fun h => (nomatch h)⟩
    dsimp only
    rw [pool_setPool_self]
    exact ⟨hphase, hlive⟩

theorem finalize_spec
    (hr : ∀ p, task.replace p = true → (pools p).phase (r.server.pool p) = .published) :
    ∃ r', undoOrder.foldlM (finalizePool task w) r = some r' ∧
      SameBeside r.server r'.server ∧ r'.handle = r.handle ∧
      (∀ p, task.replace p = true → (pools p).phase (r'.server.pool p) = .finalized ∧
        (pools p).live (r'.server.pool p) = (pools p).live (r.server.pool p)) ∧
      ∀ p, task.replace p = false → r'.server.pool p = r.server.pool p := by
  obtain ⟨r₁, h₁, hs₁, hh₁, ho₁, hf₁, hk₁⟩ := finalizePool_spec (w := w) (hr .transient)
  obtain ⟨r₂, h₂, hs₂, hh₂, ho₂, hf₂, hk₂⟩ := finalizePool_spec (w := w) (p := .expert)
    (r := r₁) (fun h => by rw [ho₁ .expert (by decide)]; exact hr .expert h)
  obtain ⟨r₃, h₃, hs₃, hh₃, ho₃, hf₃, hk₃⟩ := finalizePool_spec (w := w) (p := .kv)
    (r := r₂) (fun h => by
      rw [ho₂ .kv (by decide), ho₁ .kv (by decide)]
      exact hr .kv h)
  refine ⟨r₃, ?_, (hs₁.trans hs₂).trans hs₃, hh₃.trans (hh₂.trans hh₁), fun p hp => ?_,
    fun p hp => ?_⟩
  · simp [undoOrder, List.foldlM, h₁, h₂, h₃]
  · cases p with
    | kv =>
      rw [← ho₁ .kv (by decide), ← ho₂ .kv (by decide)]
      exact hf₃ hp
    | expert =>
      rw [ho₃ .expert (by decide), ← ho₁ .expert (by decide)]
      exact hf₂ hp
    | transient =>
      rw [ho₃ .transient (by decide), ho₂ .transient (by decide)]
      exact hf₁ hp
  · cases p with
    | kv => rw [hk₃ hp, ho₂ .kv (by decide), ho₁ .kv (by decide)]
    | expert => rw [ho₃ .expert (by decide), hk₂ hp, ho₁ .expert (by decide)]
    | transient => rw [ho₃ .transient (by decide), ho₂ .transient (by decide), hk₁ hp]

def SlotAt (target : Nat) (slot slot' : Slot) : Prop :=
  slot'.nCtx = toInt32 target ∧ slot'.nPast = slot.nPast ∧
    slot'.cacheTokens.tokens =
      slot.cacheTokens.tokens.take (slot.cacheTokens.mediaSafePrefixSize target)

theorem publishSlots_spec (target : Nat) (slots : List Slot) :
    ∃ slots', publishSlots target slots
      (slots.map fun slot => slot.cacheTokens.mediaSafePrefixSize target) = some slots' ∧
      List.Forall₂ (SlotAt target) slots slots' := by
  induction slots with
  | nil => exact ⟨[], rfl, .nil⟩
  | cons slot rest ih =>
    obtain ⟨rest', hrest, hall⟩ := ih
    have htokens : ∃ tokens, (if slot.cacheTokens.mediaSafePrefixSize target <
        slot.cacheTokens.tokens.length then slot.cacheTokens.shrinkToMediaSafePrefix
          (slot.cacheTokens.mediaSafePrefixSize target) else some slot.cacheTokens) =
          some tokens ∧ tokens.tokens = slot.cacheTokens.tokens.take
            (slot.cacheTokens.mediaSafePrefixSize target) := by
      split
      · exact slot.cacheTokens.shrink_isSome target
      next hkeep =>
        exact ⟨_, rfl, (List.take_of_length_le (Nat.not_lt.mp hkeep)).symm⟩
    obtain ⟨tokens, hsome, heq⟩ := htokens
    rw [List.map_cons, publishSlots, hsome]
    dsimp only [Option.bind_some]
    rw [hrest]
    exact ⟨_, rfl, .cons ⟨rfl, rfl, heq⟩ hall⟩

/-! ## The task as a whole -/

/-- Nothing that a client or a later task can see has changed. -/
structure Unchanged (s s' : Server pools) : Prop where
  idle : ∀ p, (pools p).phase (s'.pool p) = .idle
  live : ∀ p, (pools p).live (s'.pool p) = (pools p).live (s.pool p)
  beside : SameBeside s s'

/-- Everything the task replaces is at its target. -/
structure AtTarget (task : Task pools) (s s' : Server pools) : Prop where
  idle : ∀ p, (pools p).phase (s'.pool p) = .idle
  replaced : ∀ p, task.replace p = true → (pools p).Meets ((pools p).live (s'.pool p))
    (task.request p)
  others : ∀ p, task.replace p = false → (pools p).live (s'.pool p) = (pools p).live (s.pool p)
  plan : s'.resolvedResourcePlan = task.targetPlan
  context : s'.nCtx = if task.replace .kv then toInt32 task.targetContext else s.nCtx
  context_published : s'.nCtxPublished = s'.nCtx
  slots : if task.replace .kv then List.Forall₂ (SlotAt (targetSlotContext task s)) s.slots s'.slots
    else s'.slots = s.slots

theorem publishLogical_spec (task : Task pools) (h : SameBeside s₀ s) :
    ∃ s', publishLogical task (targetCachePrefixes task s₀) s = some s' ∧ s'.pool = s.pool ∧
      s'.resolvedResourcePlan = task.targetPlan ∧
      s'.nCtx = (if task.replace .kv then toInt32 task.targetContext else s₀.nCtx) ∧
      s'.nCtxPublished = s'.nCtx ∧
      if task.replace .kv then
        List.Forall₂ (SlotAt (targetSlotContext task s₀)) s₀.slots s'.slots
      else s'.slots = s₀.slots := by
  have hslots := h.eq_on Server.slots fun _ _ => rfl
  have hctx := h.eq_on Server.nCtx fun _ _ => rfl
  unfold publishLogical targetCachePrefixes
  cases hkv : task.replace .kv with
  | false => exact ⟨_, rfl, rfl, rfl, hctx, rfl, hslots⟩
  | true =>
    obtain ⟨slots', hsome, hall⟩ := publishSlots_spec (targetSlotContext task s₀) s₀.slots
    have htarget : targetSlotContext task s = targetSlotContext task s₀ := by
      rw [targetSlotContext, targetSlotContext, hslots]
    simp only [if_true]
    rw [htarget, hslots, hsome]
    exact ⟨_, rfl, rfl, rfl, rfl, rfl, hall⟩

theorem commit_spec (h : Midway task w s₀ r) (hhandle : r.handle = task.replace)
    (hpublished : r.published = task.replace) :
    ∃ r', commit task w (targetCachePrefixes task s₀) r = some r' ∧
      AtTarget task s₀ r'.server := by
  have hphase : ∀ p, task.replace p = true → (pools p).phase (r.server.pool p) = .published :=
    fun p hp => h.reversible.published p (by rw [hpublished, hp])
  obtain ⟨r₁, h₁, hs₁, hh₁, hfinal, hkept⟩ := finalize_spec (w := w) hphase
  obtain ⟨s₂, h₂, hpool, hplan, hctx, hctx', hslots⟩ :=
    publishLogical_spec task (h.beside.trans hs₁)
  -- the handles settle to what is live now
  have hsettles : ∀ p, Settles (pools p) ((pools p).live (r₁.server.pool p)) (s₂.pool p)
      (r₁.handle p) := by
    intro p
    rw [hpool, hh₁, hhandle]
    cases hp : task.replace p with
    | true => simp [Settles, (hfinal p hp).1]
    | false =>
      have hahead := h.ahead p
      rw [hhandle, hpublished, hp] at hahead
      rw [hkept p hp]
      cases hahead with
      | idle phase live => exact ⟨phase, rfl⟩
  obtain ⟨r₃, h₃, hs₃, hdone⟩ := clear_spec (w := w) (r := { r₁ with server := s₂ }) hsettles
  refine ⟨r₃, ?_, ⟨fun p => (hdone p).1, fun p hp => ?_, fun p hp => ?_, ?_, ?_, ?_, ?_⟩⟩
  · simp only [commit, h₁, Option.bind_some, h₂]
    exact h₃
  · rw [(hdone p).2, (hfinal p hp).2]
    have hahead := h.ahead p
    rw [hhandle, hpublished, hp] at hahead
    cases hahead with
    | published _ _ meets => exact meets
  · rw [(hdone p).2, hkept p hp]
    have hahead := h.ahead p
    rw [hhandle, hpublished, hp] at hahead
    cases hahead with
    | idle _ live => exact live
  · exact (hs₃.eq_on Server.resolvedResourcePlan fun _ _ => rfl).trans hplan
  · exact (hs₃.eq_on Server.nCtx fun _ _ => rfl).trans hctx
  · rw [hs₃.eq_on Server.nCtxPublished fun _ _ => rfl, hs₃.eq_on Server.nCtx fun _ _ => rfl]
    exact hctx'
  · rw [hs₃.eq_on Server.slots fun _ _ => rfl]
    exact hslots

theorem unchanged_of_settles
    (h : Reversible s₀ r) : ∃ r', clear w r = some r' ∧ Unchanged s₀ r'.server := by
  obtain ⟨r', hclear, hsame, hdone⟩ := clear_spec (w := w) h.settles
  exact ⟨r', hclear, fun p => (hdone p).1, fun p => (hdone p).2, h.beside.trans hsame⟩

theorem abortTransaction_spec (h : Reversible s₀ r) :
    ∃ r', abortTransaction w r = some r' ∧ Unchanged s₀ r'.server := by
  obtain ⟨hback, hrestored⟩ := rollBack_spec (w := w) h
  obtain ⟨r', hclear, hunchanged⟩ := unchanged_of_settles (w := w) hback
  refine ⟨r', ?_, hunchanged⟩
  simp [abortTransaction, hclear, hrestored]

/-- **A rebalance task is atomic.** Whatever fails or throws before the logical publication, the
task returns: committed, with all it replaces at the target, exactly if nothing fails, and
otherwise with the server as before. -/
theorem rebalance_is_atomic (pools : Part → TwoPhase) (task : Task pools) (w : World pools)
    (s : Server pools) (hidle : ∀ p, (pools p).phase (s.pool p) = .idle) :
    ∃ s' reply, rebalance task w s = some (s', reply) ∧
      (NothingFails task w s → reply = .committed ∧ AtTarget task s s') ∧
      (¬ NothingFails task w s → reply ≠ .committed ∧ Unchanged s s') := by
  cases hcheck : check task w s with
  | error message =>
    have hnot : ¬ NothingFails task w s := fun h => by
      have hok := h.checked
      rw [hcheck] at hok
      cases hok
    refine ⟨s, .failed message, ?_, fun h => absurd h hnot, fun _ =>
      ⟨fun hne => (nomatch hne), hidle, fun _ => rfl, rfl⟩⟩
    rw [rebalance, hcheck]
  | ok _ =>
    have hadvances := reversible_advances hcheck hidle
    unfold rebalance
    rw [hcheck]
    cases hrun : reversible task w { server := s } with
    | ok r =>
      obtain ⟨hnothing, hmidway, hhandle, hpublished⟩ := hadvances.goes r hrun
      obtain ⟨r', hcommit, htarget⟩ := commit_spec hmidway hhandle hpublished
      refine ⟨r'.server, .committed, ?_, fun _ => ⟨rfl, htarget⟩, fun hnot => absurd hnothing hnot⟩
      dsimp only
      rw [hcommit]
      rfl
    | error stopped =>
      obtain ⟨stop, r⟩ := stopped
      obtain ⟨hnot, hreversible⟩ := hadvances.stops stop r hrun
      cases stop with
      | refused message =>
        obtain ⟨r', habort, hunchanged⟩ := abortTransaction_spec (w := w) hreversible
        refine ⟨r'.server, .failed message, ?_, fun h => absurd h hnot, fun _ =>
          ⟨fun hne => (nomatch hne), hunchanged⟩⟩
        dsimp only
        rw [habort]
        rfl
      | thrown =>
        obtain ⟨r', hclear, hunchanged⟩ := unchanged_of_settles (w := w) hreversible
        refine ⟨r'.server, .thrown, ?_, fun h => absurd h hnot, fun _ =>
          ⟨fun hne => (nomatch hne), hunchanged⟩⟩
        dsimp only
        rw [hclear]
        rfl

def cellServer : Server fun _ => TwoPhase.cell where
  pool _ := { value := 4096 }
  slots := [{ nPast := 0, nCtx := 4096, cacheTokens := .text [] false }]
  nCtx := 4096
  nCtxPublished := 4096
  resolvedResourcePlan := "before"
  hasManager := false

def cellTask : Task fun _ => TwoPhase.cell where
  expectedPreviousPlan := "before"
  scope := "kv-and-expert"
  replace p := p ≠ .transient
  request _ := (8192 : Nat)
  targetContext := 8192
  targetTransientPolicy := some .off
  previousTransientPolicy := some .off
  targetPlan := "after"

/-- The KV cache is published and the expert cache cannot be. -/
def cellWorld : World fun _ => TwoPhase.cell where
  choice p call := decide (¬ (p = .expert ∧ call = .publish))

theorem failed_publication_is_undone :
    ∃ s', rebalance cellTask cellWorld cellServer =
      some (s', .failed "expert-cache publication failed; the original resources were restored") ∧
      Unchanged cellServer s' := by
  have hidle : ∀ p, TwoPhase.cell.phase (cellServer.pool p) = .idle := fun _ => rfl
  obtain ⟨s', reply, hrun, hdone, hundone⟩ :=
    rebalance_is_atomic (fun _ => TwoPhase.cell) cellTask cellWorld cellServer hidle
  have hreply : (rebalance cellTask cellWorld cellServer).map Prod.snd = some (.failed
      "expert-cache publication failed; the original resources were restored") := by
    decide +kernel
  rw [hrun] at hreply
  obtain rfl := Option.some.inj hreply
  have hnot : ¬ NothingFails cellTask cellWorld cellServer := fun h => nomatch (hdone h).1
  exact ⟨s', hrun, (hundone hnot).2⟩

end ExpertStreaming.Rebalance
