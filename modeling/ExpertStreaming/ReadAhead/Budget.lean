import ExpertStreaming.ReadAhead.Model

/-! # The read-ahead queue: budgets and books

What each section does to the hints, the invariant that follows, and the budget of
a pass: as long as `advance` names the same owner and pass, the bytes accepted add
up in `admitted_bytes_` and the keys accepted gather in `seen_`.
-/
namespace ExpertStreaming.ReadAhead
open Lib RamCache LoadQueue List Option

variable {p : Params} {cfg : AheadConfig p} {s u : Ahead} {d : DescId} {past : List AheadEvent}

def hintBytes (p : Params) (d : DescId) : Nat := (p.descriptor d).bytes

/-- Hints accepted and neither expired nor finished: the one in flight, then the
pending ones. -/
def Ahead.unfinished (s : Ahead) : List DescId := s.worker.hint?.toList ++ s.pending

def acceptedHint : AheadAction × AheadOutcome → Option DescId
  | (.submit (some d) _, .accepted) => some d
  | _ => none

def processes : AheadAction × AheadOutcome → Bool
  | (.complete, _) => true
  | _ => false

def changesPass (s : Ahead) : AheadAction → Bool
  | .advance owner pass _ => owner ≠ s.owner ∨ pass ≠ s.pass
  | _ => false

/-! ## Inversion -/

variable {stale : DescId → Bool} {stats : AheadStats} {label : AheadAction × AheadOutcome}

theorem expire_stale {rest} (h : stale d = true) :
    expire p stale (d :: rest) stats = expire p stale rest (stats.expireHint p d) := if_pos h

theorem expire_fresh {rest} (h : ¬ stale d = true) : expire p stale (d :: rest) stats =
      (d :: (expire p stale rest stats).1, (expire p stale rest stats).2) := if_neg h

theorem expire_spec (stale : DescId → Bool) {pending}
    (h : total (hintBytes p) pending ≤ stats.outstandingBytes) :
    (expire p stale pending stats).1 = pending.filter (fun d => !stale d) ∧
      (expire p stale pending stats).2.outstandingBytes + total (hintBytes p) pending =
        stats.outstandingBytes + total (hintBytes p) (expire p stale pending stats).1 ∧
      (expire p stale pending stats).2.expired + (expire p stale pending stats).1.length =
        stats.expired + pending.length ∧
      (expire p stale pending stats).2.submitted = stats.submitted := by
  induction pending generalizing stats with
  | nil => exact ⟨rfl, rfl, rfl, rfl⟩
  | cons d rest ih =>
    rw [total_cons] at h
    by_cases hstale : stale d = true
    · have hout : (stats.expireHint p d).outstandingBytes = stats.outstandingBytes - hintBytes p d :=
        u64Sub_of_le (Nat.le_of_add_right_le h)
      have hexpired : (stats.expireHint p d).expired = stats.expired + 1 := rfl
      have hroom : total (hintBytes p) rest ≤ (stats.expireHint p d).outstandingBytes := by omega
      obtain ⟨hkept, hbytes, hcount, hsubmitted⟩ := ih hroom
      rw [expire_stale hstale, total_cons, length_cons]
      refine ⟨?_, by omega, by omega, hsubmitted⟩
      rw [hkept, filter_cons_of_neg (by simpa using hstale)]
    · have hroom : total (hintBytes p) rest ≤ stats.outstandingBytes := by omega
      obtain ⟨hkept, hbytes, hcount, hsubmitted⟩ := ih hroom
      rw [expire_fresh hstale]
      dsimp only
      rw [total_cons, total_cons, length_cons, length_cons]
      refine ⟨?_, by omega, by omega, hsubmitted⟩
      rw [hkept, filter_cons_of_pos (by simpa using hstale)]

/-- The hints, the pass and the counts are as before. -/
structure Quiet (s u : Ahead) : Prop where
  pending : u.pending = s.pending
  seen : u.seen = s.seen
  admittedBytes : u.admittedBytes = s.admittedBytes
  layer : u.layer = s.layer
  hint : u.worker.hint? = s.worker.hint?
  submitted : u.stats.submitted = s.stats.submitted
  expired : u.stats.expired = s.stats.expired
  outstandingBytes : u.stats.outstandingBytes = s.stats.outstandingBytes

/-- Stale hints have been taken out; the one in flight stays. -/
structure Expired (p : Params) (stale : DescId → Bool) (s u : Ahead) : Prop where
  pending : u.pending = s.pending.filter fun d => !stale d
  hint : u.worker.hint? = s.worker.hint?
  submitted : u.stats.submitted = s.stats.submitted
  outstandingBytes : u.stats.outstandingBytes + total (hintBytes p) s.pending =
    s.stats.outstandingBytes + total (hintBytes p) u.pending
  expired : u.stats.expired + u.pending.length = s.stats.expired + s.pending.length

inductive AheadStepped (cfg : AheadConfig p) (s : Ahead) :
    AheadAction × AheadOutcome → Ahead → Prop
  | quiet {label : AheadAction × AheadOutcome} {u : Ahead} (same : Quiet s u)
      (none : acceptedHint label = none) (idle : processes label = false)
      (stays : changesPass s label.1 = false) (kept : ∀ d, label.2 ≠ .dequeued d) :
      AheadStepped cfg s label u
  | accepted {d : DescId} {room : Bool} (ahead : s.layer < (p.descriptor d).key.layer)
      (fresh : (p.descriptor d).key ∉ s.seen)
      (fits : s.admittedBytes + hintBytes p d ≤ cfg.passByteLimit) :
      AheadStepped cfg s (.submit (some d) room, .accepted) (s.admitHint p d)
  | advanced {owner pass layer : Nat} (expired : Expired p (fun d =>
        changesPass s (.advance owner pass layer) ∨ (p.descriptor d).key.layer ≤ layer) s
        (s.advance p owner pass layer)) :
      AheadStepped cfg s (.advance owner pass layer, .moved) (s.advance p owner pass layer)
  | dequeued {d : DescId} {rest : List DescId} (worker : s.worker = .waiting)
      (pending : s.pending = d :: rest)
      (idle : cfg.demand = true → s.base.stats.outstanding = 0) :
      AheadStepped cfg s (.dequeue, .dequeued d) { s with pending := rest, worker := .popped d }
  | completed {d : DescId} {u : Ahead} (hint : s.worker.hint? = some d) (done : u.worker = .waiting)
      (pending : u.pending = s.pending) (seen : u.seen = s.seen)
      (admittedBytes : u.admittedBytes = s.admittedBytes) (layer : u.layer = s.layer)
      (submitted : u.stats.submitted = s.stats.submitted)
      (expired : u.stats.expired = s.stats.expired)
      (outstandingBytes : u.stats.outstandingBytes + hintBytes p d = s.stats.outstandingBytes) :
      AheadStepped cfg s (.complete, .moved) u
  | stopped (expired : Expired p (fun _ => true) s (s.stop p)) :
      AheadStepped cfg s (.stop, .moved) (s.stop p)

/-! ## The invariant -/

/-- **The queue's invariant**, with the events so far for the count of hints done. -/
structure AheadInv (cfg : AheadConfig p) (past : List AheadEvent) (s : Ahead) : Prop where
  layers : ∀ d ∈ s.pending, s.layer < (p.descriptor d).key.layer
  admitted : s.admittedBytes ≤ cfg.passByteLimit
  distinct : s.seen.Nodup
  outstanding : s.stats.outstandingBytes = total (hintBytes p) s.unfinished
  counted : s.stats.submitted =
    s.stats.expired + past.countP (fun ev => processes ev.label) + s.unfinished.length

theorem AheadInv.room (hi : AheadInv cfg past s) :
    total (hintBytes p) s.pending ≤ s.stats.outstandingBytes := by
  rw [hi.outstanding, Ahead.unfinished, total_append]
  omega

theorem advance_expired (h : total (hintBytes p) s.pending ≤ s.stats.outstandingBytes)
    (owner pass layer : Nat) : Expired p (fun d =>
      changesPass s (.advance owner pass layer) ∨ (p.descriptor d).key.layer ≤ layer) s
      (s.advance p owner pass layer) := by
  obtain ⟨hkept, hbytes, hcount, hsubmitted⟩ := expire_spec (fun d =>
    changesPass s (.advance owner pass layer) ∨ (p.descriptor d).key.layer ≤ layer) h
  exact ⟨hkept, rfl, hsubmitted, hbytes, hcount⟩

theorem stop_expired (h : total (hintBytes p) s.pending ≤ s.stats.outstandingBytes) :
    Expired p (fun _ => true) s (s.stop p) := by
  obtain ⟨hkept, hbytes, hcount, hsubmitted⟩ := expire_spec (fun _ => true) h
  have hnone : s.pending.filter (fun _ => !true) = [] := by simp
  rw [hkept, hnone] at hbytes hcount
  exact ⟨hnone.symm, rfl, hsubmitted, hbytes, hcount⟩

theorem submit_cases (hi : AheadInv cfg past s) (value : Option DescId) (room : Bool) :
    AheadStepped cfg s (.submit value room, (s.submit cfg value room).2)
      (s.submit cfg value room).1 := by
  unfold Ahead.submit
  split
  · exact .quiet ⟨rfl, rfl, rfl, rfl, rfl, rfl, rfl, rfl⟩ rfl rfl rfl (by simp)
  next d =>
  dsimp only
  split
  · exact .quiet ⟨rfl, rfl, rfl, rfl, rfl, rfl, rfl, rfl⟩ rfl rfl rfl (by simp)
  next hopen =>
  split
  · simp only [not_or, not_le, not_lt, u64Sub_of_le hi.admitted, Bool.not_eq_true] at hopen
    obtain ⟨-, hlayer, hseen, -, -, hfits⟩ := hopen
    have hle := hi.admitted
    exact .accepted hlayer hseen (by rw [hintBytes]; omega)
  · exact .quiet ⟨rfl, erase_cons_head _ _, rfl, rfl, rfl, rfl, rfl, rfl⟩ rfl rfl rfl
      (by simp)

/-- **Inversion of the step relation.** -/
theorem ahead_cases (hi : AheadInv cfg past s)
    (h : AheadStep cfg s label u) : AheadStepped cfg s label u := by
  obtain ⟨a, o⟩ := label
  cases a with
  | submit value room =>
    have hr : s.submit cfg value room = (u, o) := some.inj h
    have hcases := submit_cases hi value room
    rw [hr] at hcases
    exact hcases
  | advance owner pass layer => cases h; exact .advanced (advance_expired hi.room owner pass layer)
  | dequeue =>
    obtain ⟨r, hr, heq⟩ := map_eq_some_iff.mp h
    cases heq
    unfold Ahead.dequeue at hr
    split at hr
    next d rest hworker hpending =>
      split at hr
      · cases hr
      next hopen =>
      cases hr
      simp only [not_or, not_and, not_not] at hopen
      exact .dequeued hworker hpending hopen.2
    · cases hr
  | consult =>
    obtain ⟨u', hu, heq⟩ := map_eq_some_iff.mp h
    cases heq
    unfold Ahead.consulted at hu
    split at hu
    next d hworker =>
      have hhint : s.worker.hint? = some d := by rw [hworker]; rfl
      split at hu <;> cases hu <;>
        exact .quiet ⟨rfl, rfl, rfl, rfl, hhint.symm, rfl, rfl, rfl⟩ rfl rfl rfl (by simp)
    · cases hu
  | issue answers =>
    obtain ⟨u', hu, heq⟩ := map_eq_some_iff.mp h
    cases heq
    unfold Ahead.issued at hu
    split at hu
    next d hworker =>
      have hhint : s.worker.hint? = some d := by rw [hworker]; rfl
      split at hu
      · split at hu
        · cases hu
          exact .quiet ⟨rfl, rfl, rfl, rfl, hhint.symm, rfl, rfl, rfl⟩ rfl rfl rfl (by simp)
        · cases hu
      · cases hu
        exact .quiet ⟨rfl, rfl, rfl, rfl, hhint.symm, rfl, rfl, rfl⟩ rfl rfl rfl (by simp)
    · cases hu
  | complete =>
    obtain ⟨u', hu, heq⟩ := map_eq_some_iff.mp h
    cases heq
    unfold Ahead.complete at hu
    split at hu
    next d bytes failed hworker =>
      cases hu
      have hhint : s.worker.hint? = some d := by rw [hworker]; rfl
      refine .completed hhint rfl rfl rfl rfl rfl rfl rfl ?_
      have hle : hintBytes p d ≤ s.stats.outstandingBytes := by
        rw [hi.outstanding, Ahead.unfinished, hhint, toList_some, singleton_append,
          total_cons]
        omega
      exact (congrArg (· + hintBytes p d) (u64Sub_of_le hle)).trans (Nat.sub_add_cancel hle)
    · cases hu
  | exit =>
    obtain ⟨u', hu, heq⟩ := map_eq_some_iff.mp h
    cases heq
    unfold Ahead.exit at hu
    split at hu
    next hworker =>
      split at hu
      · cases hu
        exact .quiet ⟨rfl, rfl, rfl, rfl, by rw [hworker]; rfl, rfl, rfl, rfl⟩ rfl rfl rfl (by simp)
      · cases hu
    · cases hu
  | stop => cases h; exact .stopped (stop_expired hi.room)
  | base a =>
    obtain ⟨r, hr, heq⟩ := map_eq_some_iff.mp h
    cases heq
    exact .quiet ⟨rfl, rfl, rfl, rfl, rfl, rfl, rfl, rfl⟩ rfl rfl rfl (by simp)

/-! ## Every step keeps the invariant -/

theorem Quiet.unfinished (h : Quiet s u) : u.unfinished = s.unfinished := by
  rw [Ahead.unfinished, Ahead.unfinished, h.pending, h.hint]

theorem Expired.outstanding (h : Expired p stale s u)
    (hout : s.stats.outstandingBytes = total (hintBytes p) s.unfinished) :
    u.stats.outstandingBytes = total (hintBytes p) u.unfinished := by
  have hbytes := h.outstandingBytes
  rw [Ahead.unfinished, total_append] at hout ⊢
  rw [h.hint]
  omega

theorem Expired.counted {processed} (h : Expired p stale s u)
    (hcount : s.stats.submitted = s.stats.expired + processed + s.unfinished.length) :
    u.stats.submitted = u.stats.expired + processed + u.unfinished.length := by
  have hexpired := h.expired
  rw [Ahead.unfinished, length_append] at hcount ⊢
  rw [h.hint, h.submitted]
  omega

theorem countP_snoc {P ev} :
    (past ++ [ev]).countP P = past.countP P + if P ev then 1 else 0 := by
  rw [countP_append, countP_singleton]

theorem AheadInv.step (hi : AheadInv cfg past s)
    (h : AheadStep cfg s label u) : AheadInv cfg (past ++ [⟨s, label, u⟩]) u := by
  have hcounted := hi.counted
  cases ahead_cases hi h with
  | quiet same none idle stays kept =>
    refine ⟨?_, ?_, ?_, ?_, ?_⟩
    · rw [same.pending, same.layer]; exact hi.layers
    · rw [same.admittedBytes]; exact hi.admitted
    · rw [same.seen]; exact hi.distinct
    · rw [same.outstandingBytes, same.unfinished]; exact hi.outstanding
    · rw [countP_snoc, idle, same.submitted, same.expired, same.unfinished]; exact hcounted
  | @accepted d room ahead fresh fits =>
    have hlist : (s.admitHint p d).unfinished = s.unfinished ++ [d] := by
      rw [Ahead.unfinished, Ahead.unfinished, append_assoc]; rfl
    refine ⟨?_, fits, nodup_cons.mpr ⟨fresh, hi.distinct⟩, ?_, ?_⟩
    · intro d' hd'
      rcases mem_append.mp hd' with hold | hnew
      · exact hi.layers d' hold
      · rw [mem_singleton.mp hnew]; exact ahead
    · rw [hlist, total_append, total_cons, ← hi.outstanding]; rfl
    · rw [countP_snoc, hlist, length_append]
      show s.stats.submitted + 1 = s.stats.expired + (_ + 0) + (s.unfinished.length + 1)
      omega
  | @advanced owner pass layer expired =>
    refine ⟨?_, ?_, ?_, expired.outstanding hi.outstanding, ?_⟩
    · intro d hd
      rw [expired.pending, mem_filter] at hd
      have hfresh := hd.2
      simp only [Bool.not_eq_true', decide_eq_false_iff_not, not_or, not_le] at hfresh
      exact hfresh.2
    · show (if _ then 0 else s.admittedBytes) ≤ _
      split
      · exact Nat.zero_le _
      · exact hi.admitted
    · show (if _ then [] else s.seen).Nodup
      split
      · exact nodup_nil
      · exact hi.distinct
    · rw [countP_snoc]
      exact expired.counted hcounted
  | @dequeued d rest worker pending idle =>
    have hlist : s.unfinished = d :: rest := by
      rw [Ahead.unfinished, worker, pending]; rfl
    refine ⟨?_, hi.admitted, hi.distinct, ?_, ?_⟩
    · intro d' hd'
      exact hi.layers d' (pending ▸ mem_cons_of_mem d hd')
    · exact hi.outstanding.trans (by rw [hlist]; rfl)
    · rw [countP_snoc]
      exact hcounted.trans (by rw [hlist]; rfl)
  | @completed d _ hint done pending seen admittedBytes layer submitted expired outstandingBytes =>
    have hlist : s.unfinished = d :: s.pending := by rw [Ahead.unfinished, hint]; rfl
    have hnew : u.unfinished = s.pending := by rw [Ahead.unfinished, done, pending]; rfl
    refine ⟨?_, ?_, ?_, ?_, ?_⟩
    · rw [pending, layer]; exact hi.layers
    · rw [admittedBytes]; exact hi.admitted
    · rw [seen]; exact hi.distinct
    · have hout := hi.outstanding
      rw [hlist, total_cons] at hout
      rw [hnew]
      omega
    · rw [hlist, length_cons] at hcounted
      rw [countP_snoc, hnew, submitted, expired]
      show s.stats.submitted = s.stats.expired + (_ + 1) + s.pending.length
      omega
  | stopped expired =>
    refine ⟨by simp [Ahead.stop], hi.admitted, hi.distinct, expired.outstanding hi.outstanding, ?_⟩
    rw [countP_snoc]
    exact expired.counted hcounted

theorem AheadInv.initial (h : AheadInit cfg s) : AheadInv cfg [] s := by
  obtain ⟨base, -, rfl⟩ := h
  exact ⟨by simp, Nat.zero_le _, nodup_nil, rfl, rfl⟩

theorem AheadInv.run {s₀ evs} (hinit : AheadInit cfg s₀) (run : Trace (AheadStep cfg) s₀ evs s) :
    AheadInv cfg evs s :=
  run.history (H := AheadInv cfg) (fun _ _ _ _ hi h => hi.step h) (.initial hinit)

/-! ## One pass -/

def hintKey (p : Params) (d : DescId) : ExpertKey := (p.descriptor d).key

def acceptedIn (evs : List AheadEvent) : List DescId := evs.filterMap fun ev => acceptedHint ev.label

theorem AheadStepped.within (h : AheadStepped cfg s label u)
    (hstay : changesPass s label.1 = false) :
    u.admittedBytes = s.admittedBytes + total (hintBytes p) (acceptedHint label).toList ∧
      u.seen = (acceptedHint label).toList.map (hintKey p) ++ s.seen := by
  cases h with
  | quiet same none idle stays kept =>
    rw [none]
    exact ⟨same.admittedBytes, same.seen⟩
  | accepted ahead fresh fits => exact ⟨rfl, rfl⟩
  | advanced expired =>
    simp only [changesPass] at hstay
    refine ⟨?_, ?_⟩
    · show (if _ then 0 else s.admittedBytes) = _
      rw [hstay]; rfl
    · show (if _ then [] else s.seen) = _
      rw [hstay]; rfl
  | dequeued worker pending idle => exact ⟨rfl, rfl⟩
  | completed hint done pending seen admittedBytes layer submitted expired outstandingBytes =>
    exact ⟨admittedBytes, seen⟩
  | stopped expired => exact ⟨rfl, rfl⟩

theorem acceptedIn_cons (ev : AheadEvent) (evs : List AheadEvent) :
    acceptedIn (ev :: evs) = (acceptedHint ev.label).toList ++ acceptedIn evs := by
  rw [acceptedIn, filterMap_cons]
  cases acceptedHint ev.label with
  | none => rfl
  | some d => rfl

/-- **A stretch of a run within one pass adds up its hints.** -/
theorem pass_grows {evs} (run : Trace (AheadStep cfg) s evs u) (hi : AheadInv cfg past s)
    (hstay : ∀ ev ∈ evs, changesPass ev.before ev.label.1 = false) :
    u.admittedBytes = s.admittedBytes + total (hintBytes p) (acceptedIn evs) ∧
      u.seen = ((acceptedIn evs).map (hintKey p)).reverse ++ s.seen := by
  induction run generalizing past with
  | nil s => exact ⟨rfl, rfl⟩
  | @cons s a s' evs t hstep _ ih =>
    have hfirst := (ahead_cases hi hstep).within (hstay ⟨s, a, s'⟩ mem_cons_self)
    have hrest := ih (hi.step hstep) fun ev hev => hstay ev (mem_cons_of_mem _ hev)
    rw [acceptedIn_cons]
    refine ⟨?_, ?_⟩
    · rw [hrest.1, hfirst.1, total_append, Nat.add_assoc]
    · rw [hrest.2, hfirst.2, map_append, reverse_append, append_assoc]
      -- at most one hint comes from the first step
      cases acceptedHint a with
      | none => rfl
      | some d => rfl

/-- What a run of the read-ahead queue keeps to. -/
structure InBudget (cfg : AheadConfig p) (evs : List AheadEvent) (s : Ahead) : Prop where
  bytes : ∀ pre pass post, evs = pre ++ pass ++ post →
    (∀ ev ∈ pass, changesPass ev.before ev.label.1 = false) →
      total (hintBytes p) (acceptedIn pass) ≤ cfg.passByteLimit
  once : ∀ pre pass post, evs = pre ++ pass ++ post →
    (∀ ev ∈ pass, changesPass ev.before ev.label.1 = false) →
      ((acceptedIn pass).map (hintKey p)).Nodup
  pending : ∀ d ∈ s.pending, s.layer < (hintKey p d).layer
  dequeued : ∀ ev ∈ evs, ∀ d, ev.label.2 = .dequeued d → ev.before.layer < (hintKey p d).layer ∧
    (cfg.demand = true → ev.before.base.stats.outstanding = 0)
  outstanding : s.stats.outstandingBytes =
    total (hintBytes p) s.pending + total (hintBytes p) s.worker.hint?.toList
  counted : s.stats.submitted = s.stats.expired + evs.countP (fun ev => processes ev.label) +
    s.pending.length + s.worker.hint?.toList.length

/-- **Read-ahead keeps to its budgets and loses no hint.** -/
theorem read_ahead_in_budget {s₀ : Ahead} {evs : List AheadEvent} (hinit : AheadInit cfg s₀)
    (run : Trace (AheadStep cfg) s₀ evs s) : InBudget cfg evs s := by
  have hi := AheadInv.run hinit run
  have hpass : ∀ pre pass post, evs = pre ++ pass ++ post →
      (∀ ev ∈ pass, changesPass ev.before ev.label.1 = false) →
      ∃ (t u : Ahead) (past : List AheadEvent), AheadInv cfg past u ∧
        u.admittedBytes = t.admittedBytes + total (hintBytes p) (acceptedIn pass) ∧
        u.seen = ((acceptedIn pass).map (hintKey p)).reverse ++ t.seen := by
    intro pre pass post hevs hstay
    subst hevs
    obtain ⟨u, hto, -⟩ := run.split
    obtain ⟨t, hpre, hwithin⟩ := hto.split
    exact ⟨t, u, _, .run hinit hto, pass_grows hwithin (.run hinit hpre) hstay⟩
  refine ⟨?_, ?_, hi.layers, ?_, ?_, ?_⟩
  · intro pre pass post hevs hstay
    obtain ⟨t, u, past, hu, hbytes, -⟩ := hpass pre pass post hevs hstay
    have hle := hu.admitted
    omega
  · intro pre pass post hevs hstay
    obtain ⟨t, u, past, hu, -, hseen⟩ := hpass pre pass post hevs hstay
    have hdistinct := hu.distinct
    rw [hseen] at hdistinct
    exact nodup_reverse.mp (nodup_append.mp hdistinct).1
  · intro ev hev d hd
    obtain ⟨pre, post, -, hpre, hstep, -⟩ := run.of_mem hev
    have hbefore := AheadInv.run hinit hpre
    have hcases := ahead_cases hbefore hstep
    obtain ⟨before, label, after⟩ := ev
    dsimp only at hd hbefore hcases ⊢
    cases hcases with
    | quiet same none idle stays kept => exact absurd hd (kept d)
    | accepted | advanced | completed | stopped => cases hd
    | dequeued worker pending idle =>
      cases hd
      exact ⟨hbefore.layers d (pending ▸ mem_cons_self), idle⟩
  · rw [hi.outstanding, Ahead.unfinished, total_append, Nat.add_comm]
  · rw [hi.counted, Ahead.unfinished, length_append]
    omega

def layeredCache : Params :=
  { tinyCache true with
    descriptor := fun d => { (tinyCache true).descriptor d with key := ⟨d, d, .gate⟩ } }

def tinyAhead : AheadConfig layeredCache where
  passByteLimit := 2
  limit_pos := by decide
  limit_le := by decide
  queue :=
    { workers := 1, requests := 1, byteLimit := 1, workers_pos := Nat.one_pos
      workers_le := by decide, requests_ge := by decide, requests_le := by decide
      bytes_pos := Nat.one_pos, bytes_le := by decide }
  demand := true

def threeHints : List AheadAction :=
  [.advance 1 1 0, .submit (some 1) true, .submit (some 2) true, .submit (some 3) true, .dequeue,
    .advance 1 1 2, .consult, .issue (some [true]), .complete]

theorem hints_in_tinyAhead :
    ∃ evs s, execute (aheadStep tinyAhead)
        { base := .initial tinyAhead.queue (.initial zeroed zeroed) } threeHints = some (evs, s) ∧
      (s.stats.submitted = 2 ∧ s.stats.expired = 1 ∧ s.stats.rejected = 1 ∧
        s.stats.advisedBytes = 1) ∧ InBudget tinyAhead evs s := by
  have hrun : ((execute (aheadStep tinyAhead)
      { base := .initial tinyAhead.queue (.initial zeroed zeroed) } threeHints).any fun r =>
        decide (r.2.stats.submitted = 2 ∧ r.2.stats.expired = 1 ∧ r.2.stats.rejected = 1 ∧
          r.2.stats.advisedBytes = 1)) = true := by
    decide +kernel
  obtain ⟨⟨evs, s⟩, hexec, hstats⟩ := (any_eq_true _ _).mp hrun
  refine ⟨evs, s, hexec, of_decide_eq_true hstats, read_ahead_in_budget ?_ (execute_trace hexec)⟩
  exact ⟨_, .of_init ⟨_, .of_init ⟨zeroed, zeroed, rfl⟩, fun _ _ => rfl, rfl⟩, rfl⟩

end ExpertStreaming.ReadAhead
