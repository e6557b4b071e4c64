import ExpertStreaming.LoadQueue.Progress

/-! # The load queue: every request is answered once

What has happened so far explains what the slots hold. A slot in use goes back to
one accepted request, with nothing else said about its id since; a finished slot,
and a worker coming back from the cache, hold what the cache answered to that
request after it was accepted. So each accepted request is returned once, with its
own result.
-/
namespace ExpertStreaming.LoadQueue
open Lib RamCache List

variable {p : Params} {cfg : QueueConfig p} {q u : Queue} {id k w : Nat} {d : DescId}
  {past : List QueueEvent}

/-! ## Events about a request -/

def accepts (id : Nat) : QueueAction × QueueOutcome → Bool
  | (.trySubmit i _, .accepted) => i = id
  | _ => false

def returns (id : Nat) : QueueAction × QueueOutcome → Bool
  | (.next _, .completed i _ _) => i = id
  | _ => false

def concerns (id : Nat) (label : QueueAction × QueueOutcome) : Bool :=
  accepts id label || returns id label

/-- The lease and the error that come out of a call to the cache. -/
def resultOf : Outcome → Option LeaseId × Option CacheError
  | .leased i => (some i, none)
  | .threw error => (none, some error)
  | _ => (none, none)

/-- The cache answers `o` to the request `id` for `d`, at its submission or to its worker. -/
inductive Answers (p : Params) (id : Nat) (d : DescId) (o : Outcome) : QueueEvent → Prop
  | lookup {ev : QueueEvent} (label : ev.label = (.trySubmit id (some d), .accepted))
      (found : (ev.before.cache.tryAcquire p (some d)).2 = o) : Answers p id d o ev
  | load {ev : QueueEvent} {w k : Nat} {a : Action} {x : Worker} {item : Slot}
      (label : ev.label = (.work w a, .cached o)) (worker : ev.before.workers[w]? = some x)
      (taken : x.slot? = some k) (slot : ev.before.slots[k]? = some item) (id_eq : item.id = id)
      (desc : item.desc = some d) : Answers p id d o ev

/-- The first of the events `since` accepted the request; nothing else happened under its id. -/
def OpenSince (past : List QueueEvent) (id : Nat) (d : DescId) (since : List QueueEvent) : Prop :=
  ∃ pre sub mid, past = pre ++ since ∧ since = sub :: mid ∧
    sub.label = (.trySubmit id (some d), .accepted) ∧ ∀ ev ∈ mid, concerns id ev.label = false

variable {ev : QueueEvent} {item : Slot}

theorem OpenSince.snoc {since : List QueueEvent}
    (h : OpenSince past id d since) (hev : concerns id ev.label = false) :
    OpenSince (past ++ [ev]) id d (since ++ [ev]) := by
  obtain ⟨pre, sub, mid, rfl, rfl, hsub, hmid⟩ := h
  refine ⟨pre, sub, mid ++ [ev], append_assoc _ _ _, rfl, hsub, fun e he => ?_⟩
  rcases mem_append.mp he with he | he
  · exact hmid e he
  · rw [mem_singleton.mp he]; exact hev

theorem OpenSince.accepted
    (h : ev.label = (.trySubmit id (some d), .accepted)) : OpenSince (past ++ [ev]) id d [ev] :=
  ⟨past, ev, [], rfl, rfl, h, by simp⟩

def Opened (past : List QueueEvent) (item : Slot) : Prop :=
  ∃ d since, item.desc = some d ∧ OpenSince past item.id d since

/-- The result is the cache's answer to the request in the slot, given since. -/
def Answered (p : Params) (past : List QueueEvent) (item : Slot)
    (result : Option LeaseId × Option CacheError) : Prop :=
  ∃ d since, item.desc = some d ∧ OpenSince past item.id d since ∧
    ∃ ev ∈ since, ∃ o, Answers p item.id d o ev ∧ result = resultOf o

theorem Opened.snoc (h : Opened past item)
    (hev : concerns item.id ev.label = false) : Opened (past ++ [ev]) item := by
  obtain ⟨d, since, hd, hopen⟩ := h
  exact ⟨d, _, hd, hopen.snoc hev⟩

theorem Answered.snoc {result} (h : Answered p past item result)
    (hev : concerns item.id ev.label = false) : Answered p (past ++ [ev]) item result := by
  obtain ⟨d, since, hd, hopen, e, he, o, hanswers, hresult⟩ := h
  exact ⟨d, _, hd, hopen.snoc hev, e, mem_append_left _ he, o, hanswers, hresult⟩

/-! ## The history explains the slots -/

structure History (p : Params) (past : List QueueEvent) (q : Queue) : Prop where
  used : ∀ (k : Nat) item, q.slots[k]? = some item → item.state ≠ .free → Opened past item
  ready : ∀ (k : Nat) item, q.slots[k]? = some item → item.state = .ready →
    Answered p past item (item.payload, item.error)
  loaded : ∀ (w k : Nat) payload error item, q.workers[w]? = some (.loaded k payload error) →
    q.slots[k]? = some item → Answered p past item (payload, error)

theorem History.snoc (h : History p past q) (hi : QueueInv cfg q)
    (hev : ∀ (k : Nat) item, q.slots[k]? = some item → item.state ≠ .free →
      concerns item.id ev.label = false) : History p (past ++ [ev]) q := by
  refine ⟨fun k item hk hused => ?_, fun k item hk hready => ?_,
    fun w k payload error item hw hk => ?_⟩
  · exact (h.used k item hk hused).snoc (hev k item hk hused)
  · exact (h.ready k item hk hready).snoc (hev k item hk (by rw [hready]; simp))
  · obtain ⟨d, x, hx, hrun, -⟩ := hi.runs_of_taken hw rfl
    rw [hk] at hx
    cases hx
    exact (h.loaded w k payload error item hw hk).snoc (hev k item hk (by rw [hrun]; simp))

theorem History.transfer (h : History p past q)
    (hslots : ∀ (j : Nat) item, u.slots[j]? = some item → q.slots[j]? = some item ∨
      (item.state ≠ .free → Opened past item) ∧
        (item.state = .ready → Answered p past item (item.payload, item.error)))
    (hworkers : ∀ (w j : Nat) payload error item, u.workers[w]? = some (.loaded j payload error) →
      u.slots[j]? = some item → q.workers[w]? = some (.loaded j payload error) ∧
        q.slots[j]? = some item ∨ Answered p past item (payload, error)) : History p past u := by
  refine ⟨fun j item hj hused => ?_, fun j item hj hready => ?_,
    fun w j payload error item hw hj => ?_⟩
  · rcases hslots j item hj with hold | hnew
    · exact h.used j item hold hused
    · exact hnew.1 hused
  · rcases hslots j item hj with hold | hnew
    · exact h.ready j item hold hready
    · exact hnew.2 hready
  · rcases hworkers w j payload error item hw hj with ⟨hold, hslot⟩ | hnew
    · exact h.loaded w j payload error item hold hslot
    · exact hnew

theorem History.quiet (h : History p past q) (hi : QueueInv cfg q)
    (hev : ∀ id, concerns id ev.label = false)
    (hslots : ∀ (j : Nat) item, u.slots[j]? = some item → q.slots[j]? = some item ∨
      (item.state ≠ .free → Opened (past ++ [ev]) item) ∧
        (item.state = .ready → Answered p (past ++ [ev]) item (item.payload, item.error)))
    (hworkers : ∀ (w j : Nat) payload error item, u.workers[w]? = some (.loaded j payload error) →
      u.slots[j]? = some item → q.workers[w]? = some (.loaded j payload error) ∧
        q.slots[j]? = some item ∨ Answered p (past ++ [ev]) item (payload, error)) :
    History p (past ++ [ev]) u :=
  (h.snoc hi fun _ item _ _ => hev item.id).transfer hslots hworkers

theorem concerns_of_declined {act o} (h : o = .refused ∨ o = .nothing ∨ ∃ e, o = .threw e) :
    concerns id (act, o) = false := by
  rcases h with rfl | rfl | ⟨e, rfl⟩ <;> cases act <;> rfl

theorem History.submitted (h : History p past q) (hi : QueueInv cfg q) {cache o}
    (hslot : q.slots[k]? = some item) (hfree : item.state = .free)
    (hfresh : ∀ x ∈ q.slots, x.state ≠ .free → x.id ≠ id)
    (htried : ev.before.cache.tryAcquire p (some d) = (cache, o))
    (hlabel : ev.label = (.trySubmit id (some d), .accepted)) :
    History p (past ++ [ev]) (q.submitted p k id d cache o) := by
  obtain ⟨hid, hdesc, -⟩ := answered_fields id d o
  have hidle : item.state ≠ .running := by rw [hfree]; simp
  have hopen : OpenSince (past ++ [ev]) (Slot.answered id d o).id d [ev] := by
    rw [hid]
    exact .accepted hlabel
  have hothers : History p (past ++ [ev]) q := by
    refine h.snoc hi fun j x hj hused => ?_
    have hne : id ≠ x.id := fun heq => hfresh x (mem_of_getElem? hj) hused heq.symm
    rw [hlabel]
    simp [concerns, accepts, returns, hne]
  refine hothers.transfer (fun j x hj => ?_) fun v j payload error x hv hj => ?_
  · rcases getElem?_set_cases hj with ⟨-, rfl⟩ | ⟨-, hold⟩
    · refine .inr ⟨fun _ => ⟨d, _, hdesc, hopen⟩, fun hready => ?_⟩
      refine ⟨d, _, hdesc, hopen, ev, mem_cons_self, o, ?_, ?_⟩
      · rw [hid]
        exact .lookup hlabel (congrArg Prod.snd htried)
      · cases o with
        | leased | threw => rfl
        | running | empty | erased | cleared | released => cases hready
    · exact .inl hold
  · rcases getElem?_set_cases hj with ⟨rfl, -⟩ | ⟨-, hold⟩
    · exact absurd rfl (hi.not_taken hslot hidle hv)
    · exact .inl ⟨hv, hold⟩

theorem History.delivered (h : History p past q) (hi : QueueInv cfg q) {wait}
    (hslot : q.slots[k]? = some item) (hready : item.state = .ready)
    (hlabel : ev.label = (.next wait, .completed item.id item.payload item.error)) :
    History p (past ++ [ev]) (q.delivered p k item) := by
  have hidle : item.state ≠ .running := by rw [hready]; simp
  have hused : item.state ≠ .free := by rw [hready]; simp
  have hrest : History p past (q.delivered p k item) := by
    refine h.transfer (fun j x hj => ?_) fun v j payload error x hv hj => ?_
    · rcases getElem?_set_cases hj with ⟨-, rfl⟩ | ⟨-, hold⟩
      · exact .inr ⟨fun hfree => absurd rfl hfree, fun hstate => by cases hstate⟩
      · exact .inl hold
    · rcases getElem?_set_cases hj with ⟨rfl, -⟩ | ⟨-, hold⟩
      · exact absurd rfl (hi.not_taken hslot hidle hv)
      · exact .inl ⟨hv, hold⟩
  refine hrest.snoc (hi.delivered hslot hready) fun j x hj hxused => ?_
  rcases getElem?_set_cases hj with ⟨-, rfl⟩ | ⟨hne, hold⟩
  · exact absurd rfl hxused
  · -- another slot in use has another id
    have hid : item.id ≠ x.id := fun heq => hne (hi.distinct hold hslot hxused hused heq.symm)
    rw [hlabel]
    simp [concerns, accepts, returns, hid]

/-- **A step extends the history that explains the queue.** -/
theorem History.step {act : QueueAction × QueueOutcome} (h : History p past q)
    (hi : QueueInv cfg q) (hs : QueueStep cfg q act u) : History p (past ++ [⟨q, act, u⟩]) u := by
  cases step_cases hi hs with
  | declined quiet => exact h.snoc hi fun _ _ _ _ => concerns_of_declined quiet
  | submitted slot free fresh going fits tried => exact h.submitted hi slot free fresh tried rfl
  | delivered slot ready => exact h.delivered hi slot ready rfl
  | @dequeued w k item worker slot queued =>
    have hidle : item.state ≠ .running := by rw [queued]; simp
    refine h.quiet hi (fun _ => rfl) (fun j x hj => ?_) fun v j payload error x hv hj => ?_
    · rcases getElem?_set_cases hj with ⟨-, rfl⟩ | ⟨-, hold⟩
      · refine .inr ⟨fun _ => ?_, fun hready => by cases hready⟩
        exact (h.used k item slot (by rw [queued]; simp)).snoc rfl
      · exact .inl hold
    · rcases getElem?_set_cases hv with ⟨-, hload⟩ | ⟨-, hold⟩
      · cases hload
      · rcases getElem?_set_cases hj with ⟨rfl, -⟩ | ⟨-, hold'⟩
        · exact absurd rfl (hi.not_taken slot hidle hold)
        · exact .inl ⟨hold, hold'⟩
  | @worked w k a cache o turn step =>
    refine h.quiet hi (fun _ => rfl) (fun j x hj => .inl hj) fun v j payload error x hv hj => ?_
    rcases getElem?_set_cases hv with ⟨rfl, hload⟩ | ⟨-, hold⟩
    · -- the worker has come out of `acquire` with the answer to this request
      have hresult : j = k ∧ (payload, error) = resultOf o := by
        cases o with
        | running => cases hload
        | leased | threw | empty | erased | cleared | released => cases hload; exact ⟨rfl, rfl⟩
      obtain ⟨rfl, hresult⟩ := hresult
      obtain ⟨y, d, hworker, htaken, ⟨item, hitem, hrun, hdesc⟩, -, -⟩ := turn.spec hi step
      have heq : x = item := Option.some.inj (hj.symm.trans hitem)
      subst heq
      obtain ⟨d', since, hd', hopen⟩ := h.used j x hitem (by rw [hrun]; simp)
      refine .inr ⟨d', _, hd', hopen.snoc rfl, _, mem_append_right _ mem_cons_self, o,
        ?_, hresult⟩
      exact .load rfl hworker htaken hitem rfl hd'
    · exact .inl ⟨hold, hj⟩
  | @completed w k payload error item worker slot =>
    obtain ⟨d, x, hx, hrun, -⟩ := hi.runs_of_taken worker rfl
    have heq : x = item := Option.some.inj (hx.symm.trans slot)
    subst heq
    refine h.quiet hi (fun _ => rfl) (fun j x hj => ?_) fun v j payload error x hv hj => ?_
    · rcases getElem?_set_cases hj with ⟨-, rfl⟩ | ⟨-, hold⟩
      · refine .inr ⟨fun _ => ?_, fun _ => ?_⟩
        · exact (h.used k _ slot (by rw [hrun]; simp)).snoc rfl
        · exact (h.loaded w k payload error _ worker slot).snoc rfl
      · exact .inl hold
    · rcases getElem?_set_cases hv with ⟨-, hload⟩ | ⟨hne, hold⟩
      · cases hload
      · rcases getElem?_set_cases hj with ⟨rfl, -⟩ | ⟨-, hold'⟩
        · exact absurd (hi.taken v w _ _ _ hold worker rfl rfl) hne
        · exact .inl ⟨hold, hold'⟩
  | @exited w worker stopping =>
    refine h.quiet hi (fun _ => rfl) (fun j x hj => .inl hj) fun v j payload error x hv hj => ?_
    rcases getElem?_set_cases hv with ⟨-, hload⟩ | ⟨-, hold⟩
    · cases hload
    · exact .inl ⟨hold, hj⟩
  | stopped =>
    exact h.quiet hi (fun _ => rfl) (fun j x hj => .inl hj)
      fun v j payload error x hv hj => .inl ⟨hv, hj⟩
  | @other a cache o foreign step =>
    exact h.quiet hi (fun _ => rfl) (fun j x hj => .inl hj)
      fun v j payload error x hv hj => .inl ⟨hv, hj⟩

theorem History.run {q₀ evs} (hinit : QueueInit cfg q₀) (run : Trace (QueueStep cfg) q₀ evs q) :
    History p evs q := by
  have hstart : QueueInv cfg q₀ ∧ History p [] q₀ := by
    refine ⟨.initial hinit, ?_⟩
    obtain ⟨cache, -, -, rfl⟩ := hinit
    refine ⟨fun k item hk hused => ?_, fun k item hk hready => ?_,
      fun w k payload error item hw _ => ?_⟩
    · rw [eq_of_mem_replicate (mem_of_getElem? hk)] at hused
      exact absurd rfl hused
    · rw [eq_of_mem_replicate (mem_of_getElem? hk)] at hready
      cases hready
    · cases eq_of_mem_replicate (mem_of_getElem? hw)
  exact (run.history (H := fun past q => QueueInv cfg q ∧ History p past q)
    (fun past q act u h hs => ⟨h.1.step hs, h.2.step h.1 hs⟩) hstart).2

/-! ## From acceptance to return -/

def Queue.Awaits (q : Queue) (id : Nat) (d : DescId) : Prop :=
  ∃ (k : Nat) (item : Slot), q.slots[k]? = some item ∧ item.state ≠ .free ∧ item.id = id ∧
    item.desc = some d

theorem Queue.Awaits.set {new} (h : q.Awaits id d) (hslot : q.slots[k]? = some item)
    (hslots : u.slots = q.slots.set k new) (hsame : item.state ≠ .free → item.id = id →
      new.state ≠ .free ∧ new.id = item.id ∧ new.desc = item.desc) : u.Awaits id d := by
  obtain ⟨j, x, hx, hused, hid, hdesc⟩ := h
  by_cases hjk : j = k
  · subst hjk
    rw [hslot] at hx
    cases hx
    obtain ⟨hnew, hnewId, hnewDesc⟩ := hsame hused hid
    refine ⟨j, new, ?_, hnew, hnewId.trans hid, hnewDesc.trans hdesc⟩
    rw [hslots]
    exact getElem?_set_self_of_some hslot new
  · refine ⟨j, x, ?_, hused, hid, hdesc⟩
    rw [hslots, getElem?_set_ne (Ne.symm hjk)]
    exact hx

theorem Queue.Awaits.step {act} (h : q.Awaits id d) (hi : QueueInv cfg q)
    (hs : QueueStep cfg q act u) (hret : returns id act = false) :
    u.Awaits id d := by
  cases step_cases hi hs with
  | declined quiet => exact h
  | submitted slot free fresh going fits tried =>
    exact h.set slot rfl fun hused => absurd free hused
  | delivered slot ready =>
    exact h.set slot rfl fun _ hid => absurd hid (of_decide_eq_false hret)
  | dequeued worker slot queued =>
    exact h.set slot rfl fun _ _ => ⟨by simp, rfl, rfl⟩
  | worked turn step => exact h
  | completed worker slot => exact h.set slot rfl fun _ _ => ⟨by simp, rfl, rfl⟩
  | exited worker stopping => exact h
  | stopped => exact h
  | other foreign step => exact h

theorem awaits_of_accepted (hi : QueueInv cfg q)
    (hs : QueueStep cfg q (.trySubmit id (some d), .accepted) u) : u.Awaits id d := by
  cases step_cases hi hs with
  | declined quiet => rcases quiet with h | h | ⟨e, h⟩ <;> cases h
  | @submitted k _ _ item cache o slot free fresh going fits tried =>
    obtain ⟨hid, hdesc, hphase⟩ := answered_fields id d o
    refine ⟨k, _, getElem?_set_self_of_some slot _, ?_, hid, hdesc⟩
    intro hfree
    rw [hfree] at hphase
    rcases hphase with h | h <;> cases h

theorem not_accepts_of_awaits {act} (h : q.Awaits id d) (hi : QueueInv cfg q)
    (hs : QueueStep cfg q act u) : accepts id act = false := by
  obtain ⟨k, item, hitem, hused, hid, -⟩ := h
  cases step_cases hi hs with
  | @declined act o quiet => rcases quiet with rfl | rfl | ⟨e, rfl⟩ <;> cases act <;> rfl
  | submitted slot free fresh going fits tried =>
    refine decide_eq_false fun heq => ?_
    exact fresh item (mem_of_getElem? hitem) hused (hid.trans heq.symm)
  | delivered | dequeued | worked | completed | exited | stopped | other => rfl

/-- A request stays in its slot until `next` returns it. -/
theorem awaits_until_returned {post} (hi : QueueInv cfg q) (h : q.Awaits id d)
    (run : Trace (QueueStep cfg) q post u) :
    (u.Awaits id d ∧ ∀ ev ∈ post, concerns id ev.label = false) ∨
      ∃ mid ret rest, post = mid ++ ret :: rest ∧ (∀ ev ∈ mid, concerns id ev.label = false) ∧
        returns id ret.label = true := by
  induction run with
  | nil s => exact .inl ⟨h, by simp⟩
  | @cons s a s' evs t hstep _ ih =>
    cases hret : returns id a with
    | true => exact .inr ⟨[], ⟨s, a, s'⟩, evs, rfl, by simp, hret⟩
    | false =>
      have hquiet : concerns id a = false := by
        rw [concerns, not_accepts_of_awaits h hi hstep, hret]; rfl
      rcases ih (hi.step hstep) (h.step hi hstep hret) with
        ⟨hu, hall⟩ | ⟨mid, ret, rest, rfl, hmid, hr⟩
      · exact .inl ⟨hu, forall_mem_cons.mpr ⟨hquiet, hall⟩⟩
      · exact .inr ⟨_ :: mid, ret, rest, rfl, forall_mem_cons.mpr ⟨hquiet, hmid⟩, hr⟩

/-- `ret` returns the request that `sub` accepted, with a lease for its descriptor or the error
that the cache gave in answer to this very request. -/
structure Settles (p : Params) (id : Nat) (d : DescId) (sub : QueueEvent)
    (mid : List QueueEvent) (ret : QueueEvent) : Prop where
  accepted : sub.label = (.trySubmit id (some d), .accepted)
  between : ∀ ev ∈ mid, concerns id ev.label = false
  result : ∃ wait payload error, ret.label = (.next wait, .completed id payload error) ∧
    Result ret.before.cache d payload error ∧
    ∃ ev ∈ sub :: mid, ∃ o, Answers p id d o ev ∧ (payload, error) = resultOf o

/-- Whatever `next` returns goes back to one accepted request. -/
theorem settled_of_returned {q₀ ret} (hinit : QueueInit cfg q₀)
    (run : Trace (QueueStep cfg) q₀ past ret.before)
    (hs : QueueStep cfg ret.before ret.label ret.after) (hret : returns id ret.label = true) :
    ∃ pre sub mid d, past = pre ++ sub :: mid ∧ Settles p id d sub mid ret := by
  have hi := (QueueInv.run hinit run).1
  have hhistory := History.run hinit run
  have hcases := step_cases hi hs
  obtain ⟨before, label, after⟩ := ret
  dsimp only at hret hi hhistory hcases
  cases hcases with
  | @declined act o quiet =>
    have hno : concerns id (act, o) = false := concerns_of_declined quiet
    rw [concerns, hret, Bool.or_true] at hno
    cases hno
  | submitted | dequeued | worked | completed | exited | stopped | other => cases hret
  | @delivered wait k item slot ready =>
    have hid : item.id = id := of_decide_eq_true hret
    obtain ⟨d, since, hd, ⟨pre, sub, mid, hpast, rfl, hsub, hmid⟩, hanswer⟩ :=
      hhistory.ready k item slot ready
    have hok := hi.slot k item slot
    rw [SlotOk, ready] at hok
    obtain ⟨d', hd', hresult⟩ := hok
    rw [hd] at hd'
    cases hd'
    rw [hid] at hsub hmid hanswer
    exact ⟨pre, sub, mid, d, hpast, hsub, hmid, wait, _, _, by rw [hid], hresult, hanswer⟩

theorem settled_of_accepted {q₀ sub pre post} (hinit : QueueInit cfg q₀)
    (run : Trace (QueueStep cfg) q₀ (pre ++ sub :: post) q)
    (hsub : sub.label = (.trySubmit id (some d), .accepted)) :
    (q.Awaits id d ∧ ∀ ev ∈ post, concerns id ev.label = false) ∨
      ∃ mid ret rest, post = mid ++ ret :: rest ∧ Settles p id d sub mid ret := by
  obtain ⟨s, hpre, hrest⟩ := run.split
  cases hrest with
  | @cons _ a s' _ _ hstep hpost =>
    have hi := (QueueInv.run hinit hpre).1
    subst hsub
    rcases awaits_until_returned (hi.step hstep) (awaits_of_accepted hi hstep) hpost with
      hwaits | ⟨mid, ret, rest, rfl, hmid, hret⟩
    · exact .inl hwaits
    · obtain ⟨t, hpre', hrest'⟩ := hpost.split
      cases hrest' with
      | @cons _ b t' _ _ hstep' _ =>
        have hpast : Trace (QueueStep cfg) q₀ (pre ++ ⟨s, _, s'⟩ :: mid) t :=
          hpre.append (.cons hstep hpre')
        obtain ⟨pre', sub', mid', d', heq, hsettles⟩ :
            ∃ pre' sub' mid' d', pre ++ _ :: mid = pre' ++ sub' :: mid' ∧
              Settles p id d' sub' mid' ⟨t, b, t'⟩ :=
          settled_of_returned hinit hpast hstep' hret
        -- both submissions are the last event so far about the id
        obtain ⟨rfl, rfl⟩ := split_at_last (P := fun ev => concerns id ev.label = true) heq
          (by simp [concerns, accepts]) (by simp [concerns, accepts, hsettles.accepted])
          (fun ev hev => by simp [hmid ev hev]) fun ev hev => by simp [hsettles.between ev hev]
        have hlabel := hsettles.accepted
        cases hlabel
        exact .inr ⟨mid, _, rest, rfl, hsettles⟩

/-- The counters count what is in the slots. -/
structure Balanced (cfg : QueueConfig p) (q : Queue) : Prop where
  distinct : ∀ (i j : Nat) a b, q.slots[i]? = some a → q.slots[j]? = some b →
    a.state ≠ .free → b.state ≠ .free → a.id = b.id → i = j
  described : ∀ item ∈ q.slots, item.state ≠ .free → item.desc.isSome = true
  outstanding : q.stats.outstanding = total Slot.live q.slots
  outstandingBytes : q.stats.outstandingBytes =
    total (fun item => if item.state = .free then 0 else item.bytes p) q.slots
  limit : q.stats.outstandingBytes ≤ cfg.byteLimit

theorem QueueInv.balanced (hi : QueueInv cfg q) : Balanced cfg q := by
  refine ⟨fun i j a b => hi.distinct, ?_, hi.outstanding, ?_, hi.limit⟩
  · intro item hitem hused
    obtain ⟨k, hk⟩ := mem_iff_getElem?.mp hitem
    have hok := hi.slot k item hk
    unfold SlotOk at hok
    split at hok
    next hfree => exact absurd hfree hused
    · exact hok.1
    · exact hok.1
    · obtain ⟨d, hd, -⟩ := hok; rw [hd]; rfl
  · refine hi.bytes.trans (total_congr fun item hitem => ?_)
    split
    next hfree =>
      obtain ⟨k, hk⟩ := mem_iff_getElem?.mp hitem
      have hok := hi.slot k item hk
      rw [SlotOk, hfree] at hok
      rw [Slot.bytes, hok.1]
    · rfl

/-- **Every accepted request is returned exactly once, with its own result.** At any point of a
run the counters are right, and what is in its slot can be returned until the queue is stopped. -/
theorem accepted_requests_are_returned_once {q₀ : Queue} {evs : List QueueEvent}
    (hinit : QueueInit cfg q₀) (run : Trace (QueueStep cfg) q₀ evs q) :
    Balanced cfg q ∧
      (∀ pre sub post id d, evs = pre ++ sub :: post →
        sub.label = (.trySubmit id (some d), .accepted) →
          (q.Awaits id d ∧ ∀ ev ∈ post, concerns id ev.label = false) ∨
            ∃ mid ret rest, post = mid ++ ret :: rest ∧ Settles p id d sub mid ret) ∧
      (∀ pre ret post id, evs = pre ++ ret :: post → returns id ret.label = true →
        ∃ pre' sub mid d, pre = pre' ++ sub :: mid ∧ Settles p id d sub mid ret) ∧
      (q.stopping = false → ∃ later u, Trace (QueueStep cfg) q later u ∧
        (∀ ev ∈ later, ev.label.1.serves = true) ∧
        ∀ pre sub post id d, evs = pre ++ sub :: post →
          sub.label = (.trySubmit id (some d), .accepted) →
            ∃ mid ret rest, post ++ later = mid ++ ret :: rest ∧ Settles p id d sub mid ret) := by
  have hi := (QueueInv.run hinit run).1
  refine ⟨hi.balanced, ?_, ?_, ?_⟩
  · intro pre sub post id d hevs hsub
    subst hevs
    exact settled_of_accepted hinit run hsub
  · intro pre ret post id hevs hret
    subst hevs
    obtain ⟨t, hpre, hrest⟩ := run.split
    cases hrest with
    | cons hstep _ => exact settled_of_returned hinit hpre hstep hret
  · intro hgoing
    obtain ⟨u, ⟨later, hlater, hserves⟩, hfree⟩ := drain_queue _ hi hgoing rfl
    refine ⟨later, u, hlater, hserves, ?_⟩
    intro pre sub post id d hevs hsub
    subst hevs
    have hrun := run.append hlater
    rw [append_assoc, cons_append] at hrun
    rcases settled_of_accepted hinit hrun hsub with ⟨⟨k, item, hitem, hused, -⟩, -⟩ | hsettled
    · exact absurd (hfree item (mem_of_getElem? hitem)) hused
    · exact hsettled

def tinyQueue : QueueConfig (tinyCache true) where
  workers := 1
  requests := 2
  byteLimit := 1
  workers_pos := Nat.one_pos
  workers_le := Nat.succ_le_succ (Nat.zero_le 7)
  requests_ge := by decide
  requests_le := by decide
  bytes_pos := Nat.one_pos
  bytes_le := by decide

def twoRequests : List QueueAction :=
  [.trySubmit 7 (some 3), .dequeue 0] ++ (loadSteps 0 3 ++ [Action.finishCopy 0]).map (.work 0) ++
    [.complete 0, .next true, .trySubmit 7 (some 3), .next true]

theorem requests_in_tinyQueue :
    ∃ evs q, execute (queueStep tinyQueue) (.initial tinyQueue (.initial zeroed zeroed))
        twoRequests = some (evs, q) ∧
      evs.countP (fun ev => returns 7 ev.label) = 2 ∧ Balanced tinyQueue q ∧
      ∀ pre ret post, evs = pre ++ ret :: post → returns 7 ret.label = true →
        ∃ pre' sub mid d, pre = pre' ++ sub :: mid ∧ Settles (tinyCache true) 7 d sub mid ret := by
  have hcount : ((execute (queueStep tinyQueue) (.initial tinyQueue (.initial zeroed zeroed))
      twoRequests).map fun r => r.1.countP fun ev => returns 7 ev.label) = some 2 := by
    decide +kernel
  obtain ⟨⟨evs, q⟩, hexec, htwo⟩ := Option.map_eq_some_iff.mp hcount
  have hinit : QueueInit tinyQueue (.initial tinyQueue (.initial zeroed zeroed)) :=
    ⟨_, .of_init ⟨zeroed, zeroed, rfl⟩, fun _ _ => rfl, rfl⟩
  obtain ⟨hbalanced, -, hreturned, -⟩ :=
    accepted_requests_are_returned_once hinit (execute_trace hexec)
  exact ⟨evs, q, hexec, htwo, hbalanced, fun pre ret post => hreturned pre ret post 7⟩

end ExpertStreaming.LoadQueue
