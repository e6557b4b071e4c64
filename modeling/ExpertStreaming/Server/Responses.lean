import ExpertStreaming.Lib.Trace
import Mathlib.Data.Finset.Basic

/-! # The server's result queue

`server_response` keeps the ids some request waits for and the results sent for them, those of the
two overloads of `send` in a queue each. Every call takes the lock for one section; a receive gives
it up while it waits and scans again after, and when it gives up changes nothing. No result is
lost, doubled or overtaken in its queue. But dropping an id does not drop its results, and nothing
takes them out once no request asks for them.
-/
namespace ExpertStreaming.Server
open Lib List

/-- `server_task_result`; of its contents the queues read the two ids. -/
structure TaskResult (β : Type) where
  id : Int
  idMulti : Int := -1
  body : β

structure Response (β : Type) where
  waitingTaskIds : Finset Int := ∅
  queueResults : List (TaskResult β) := []
  queueResultsLegacy : List (TaskResult β) := []

/-- The overloads of `send`: by pointer, and by value into the legacy queue. -/
inductive Overload where
  | pointer
  | legacy
  deriving DecidableEq

/-- One section under the lock, by any thread; `scan` is one of a receive. -/
inductive ResponseCall (β : Type) where
  | addWaitingTaskId (idTask : Int)
  | addWaitingTasks (tasks : List Int)
  | removeWaitingTaskId (idTask : Int)
  | removeWaitingTaskIds (idTasks : List Int)
  | send (o : Overload) (result : TaskResult β)
  | scan (o : Overload) (idTasks : Finset Int)

/-- A scan of `recv_with_timeout`. -/
abbrev ResponseCall.recvWithTimeout {β : Type} (idTasks : Finset Int) : ResponseCall β :=
  .scan .pointer idTasks

/-- A scan of `recv`. -/
abbrev ResponseCall.recv {β : Type} (idTask : Int) : ResponseCall β := .scan .legacy {idTask}

/-- The first stored result of one of the ids, and what stays. -/
def takeFirst {β : Type} (idTasks : Finset Int) :
    List (TaskResult β) → Option (TaskResult β × List (TaskResult β))
  | [] => none
  | r :: rest =>
    if r.id ∈ idTasks then some (r, rest)
    else (takeFirst idTasks rest).map fun found => (found.1, r :: found.2)

namespace Response

variable {β : Type} {o : Overload} {s s' : Response β} {call : ResponseCall β}
  {out : Option (TaskResult β)}
  {evs : List (Event (Response β) (ResponseCall β × Option (TaskResult β)))}

def queue (s : Response β) : Overload → List (TaskResult β)
  | .pointer => s.queueResults
  | .legacy => s.queueResultsLegacy

def setQueue (s : Response β) (o : Overload) (q : List (TaskResult β)) : Response β :=
  match o with
  | .pointer => { s with queueResults := q }
  | .legacy => { s with queueResultsLegacy := q }

@[simp] theorem queue_setQueue (s : Response β) (o o' : Overload) (q : List (TaskResult β)) :
    (s.setQueue o q).queue o' = if o = o' then q else s.queue o' := by
  cases o <;> cases o' <;> rfl

@[simp] theorem setQueue_waitingTaskIds (s : Response β) (o : Overload) (q : List (TaskResult β)) :
    (s.setQueue o q).waitingTaskIds = s.waitingTaskIds := by
  cases o <;> rfl

/-- Whether `send` stores the result. The legacy overload hands a result whose multitask is the
waiting id to a callback instead. -/
def Stores (s : Response β) (o : Overload) (result : TaskResult β) : Prop :=
  result.id ∈ s.waitingTaskIds ∧ (o = .legacy → result.idMulti ≠ result.id)

instance (s : Response β) (o : Overload) (result : TaskResult β) :
    Decidable (s.Stores o result) :=
  inferInstanceAs (Decidable (_ ∧ _))

/-- The state after a section, and the result it returns. -/
def next (s : Response β) : ResponseCall β → Option (Response β × Option (TaskResult β))
  | .addWaitingTaskId idTask =>
    some ({ s with waitingTaskIds := insert idTask s.waitingTaskIds }, none)
  | .addWaitingTasks tasks =>
    let candidate := tasks.foldl (fun candidate id => insert id candidate) s.waitingTaskIds
    some ({ s with waitingTaskIds := candidate }, none)
  | .removeWaitingTaskId idTask =>
    some ({ s with waitingTaskIds := s.waitingTaskIds.erase idTask }, none)
  | .removeWaitingTaskIds idTasks =>
    some ({ s with waitingTaskIds := idTasks.foldl Finset.erase s.waitingTaskIds }, none)
  | .send o result =>
    if s.Stores o result then some (s.setQueue o (s.queue o ++ [result]), none) else some (s, none)
  | .scan o idTasks =>
    match takeFirst idTasks (s.queue o) with
    | some (r, rest) => some (s.setQueue o rest, some r)
    | none => some (s, none)

def Step (s : Response β) (a : ResponseCall β × Option (TaskResult β)) (s' : Response β) : Prop :=
  s.next a.1 = some (s', a.2)

/-- The result a call adds to a queue: one sent while its id is waiting. -/
def accepted (s : Response β) (o : Overload) : ResponseCall β → Option (TaskResult β)
  | .send o' result => if o' = o ∧ s.Stores o' result then some result else none
  | _ => none

/-- The result a call takes from a queue and returns. -/
def received (o : Overload) (a : ResponseCall β × Option (TaskResult β)) : List (TaskResult β) :=
  match a.1 with
  | .scan o' _ => if o' = o then a.2.toList else []
  | _ => []

/-- The ids a call stops waiting for. -/
def removed : ResponseCall β → List Int
  | .removeWaitingTaskId idTask => [idTask]
  | .removeWaitingTaskIds idTasks => idTasks
  | _ => []

def resultsOf (id : Int) (results : List (TaskResult β)) : List (TaskResult β) :=
  results.filter (·.id = id)

theorem takeFirst_spec {ids} {q rest : List (TaskResult β)} {r}
    (h : takeFirst ids q = some (r, rest)) :
    r.id ∈ ids ∧ ∀ id, resultsOf id q = resultsOf id [r] ++ resultsOf id rest := by
  induction q generalizing rest with
  | nil => cases h
  | cons x q ih =>
    rw [takeFirst] at h
    split at h
    next hx =>
      cases h
      exact ⟨hx, fun id => filter_append [_] _⟩
    next hx =>
    obtain ⟨⟨r', rest'⟩, hfound, heq⟩ := Option.map_eq_some_iff.mp h
    cases heq
    obtain ⟨hr, hsame⟩ := ih hfound
    refine ⟨hr, fun id => ?_⟩
    -- the results passed over have other ids than the one found
    have hne : x.id = id → r'.id ≠ id := fun hxid hrid => hx (hxid.trans hrid.symm ▸ hr)
    have hrest := hsame id
    simp only [resultsOf, filter_cons, filter_nil, decide_eq_true_eq] at hrest ⊢
    rw [hrest]
    by_cases hid : x.id = id
    · simp [hid, hne hid]
    · simp [hid]

/-- What a section returns and leaves of one id is what it found of it, and then what it took in. -/
theorem Step.account (h : s.Step (call, out) s') (o : Overload) (id : Int) :
    resultsOf id (received o (call, out)) ++ resultsOf id (s'.queue o) =
      resultsOf id (s.queue o) ++ resultsOf id (s.accepted o call).toList := by
  unfold Step at h
  cases call with
  | send o' result =>
    simp only [next] at h
    split at h
    next hstores =>
      cases h
      by_cases ho : o' = o
      · subst ho
        simp [accepted, received, hstores, resultsOf]
      · simp [accepted, received, ho, resultsOf]
    next hnot =>
      cases h
      simp [accepted, received, hnot, resultsOf]
  | scan o' ids =>
    simp only [next] at h
    split at h
    next hfound =>
      cases h
      by_cases ho : o' = o
      · subst ho
        rw [(takeFirst_spec hfound).2 id]
        simp [accepted, received, resultsOf]
      · simp [accepted, received, ho, resultsOf]
    · cases h
      simp [accepted, received, resultsOf]
  | _ =>
    cases h
    cases o <;> simp [accepted, received, resultsOf, queue]

theorem mem_foldl_insert {id : Int} (ids : List Int) {acc : Finset Int} (h : id ∈ acc) :
    id ∈ ids.foldl (fun candidate id => insert id candidate) acc := by
  induction ids generalizing acc with
  | nil => exact h
  | cons x ids ih => exact ih (Finset.mem_insert_of_mem h)

theorem mem_foldl_erase {id : Int} {ids : List Int} {acc : Finset Int} (h : id ∈ acc)
    (hnot : id ∉ ids) : id ∈ ids.foldl Finset.erase acc := by
  induction ids generalizing acc with
  | nil => exact h
  | cons x ids ih =>
    rw [mem_cons, not_or] at hnot
    exact ih (Finset.mem_erase_of_ne_of_mem hnot.1 h) hnot.2

theorem Step.waiting (h : s.Step (call, out) s') {id} (hid : id ∈ s.waitingTaskIds)
    (hkept : id ∉ removed call) : id ∈ s'.waitingTaskIds := by
  unfold Step at h
  cases call with
  | addWaitingTaskId => cases h; exact Finset.mem_insert_of_mem hid
  | addWaitingTasks ids => cases h; exact mem_foldl_insert ids hid
  | removeWaitingTaskId =>
    cases h
    exact Finset.mem_erase_of_ne_of_mem (by simpa [removed] using hkept) hid
  | removeWaitingTaskIds => cases h; exact mem_foldl_erase hid hkept
  | _ =>
    simp only [next] at h
    split at h <;> cases h <;> simpa using hid

/-- Every stored result belongs to an id that is still waiting. -/
def Live (s : Response β) : Prop := ∀ o, ∀ r ∈ s.queue o, r.id ∈ s.waitingTaskIds

theorem Live.step (hlive : s.Live) (h : s.Step (call, out) s')
    (hclear : ∀ o, ∀ r ∈ s.queue o, r.id ∉ removed call) : s'.Live := by
  intro o r hr
  have hmem : r ∈ resultsOf r.id (s.queue o) ++ resultsOf r.id (s.accepted o call).toList := by
    rw [← h.account]
    exact mem_append_right _ (mem_filter.mpr ⟨hr, by simp⟩)
  rcases mem_append.mp hmem with hold | hnew
  · have hstored := (mem_filter.mp hold).1
    exact h.waiting (hlive o r hstored) (hclear o r hstored)
  · have haccepted : s.accepted o call = some r := by simpa using (mem_filter.mp hnew).1
    unfold accepted at haccepted
    split at haccepted
    next result =>
      split at haccepted <;> cases haccepted
      next hstores => exact h.waiting hstores.2.1 (by simp [removed])
    · cases haccepted

theorem Step.received_mem {r} (h : s.Step (call, out) s') (hr : out = some r) :
    ∃ o ids, call = .scan o ids ∧ r.id ∈ ids := by
  subst hr
  unfold Step at h
  cases call with
  | scan o ids =>
    simp only [next] at h
    split at h <;> cases h
    next hfound => exact ⟨o, ids, rfl, (takeFirst_spec hfound).1⟩
  | send =>
    simp only [next] at h
    split at h <;> cases h
  | _ => cases h

theorem account_run (h : Trace Step s evs s') (o : Overload) (id : Int) :
    resultsOf id (evs.flatMap fun ev => received o ev.label) ++ resultsOf id (s'.queue o) =
      resultsOf id (s.queue o) ++
        resultsOf id (evs.flatMap fun ev => (ev.before.accepted o ev.label.1).toList) := by
  induction h with
  | nil => simp [resultsOf]
  | cons hstep _ ih =>
    have hone := hstep.account o id
    simp only [resultsOf, flatMap_cons, filter_append] at ih hone ⊢
    rw [append_assoc, ih, ← append_assoc, hone, append_assoc]

/-- **Each result sent while its id is waiting is received at most once**, and those of one id in
the order its queue got them. If no call removes an id whose results are stored, every stored
result belongs to a waiting id. -/
theorem results_are_received_once_in_order (h : Trace Step ({} : Response β) evs s) :
    (∀ o id, resultsOf id (evs.flatMap fun ev => received o ev.label) ++
        resultsOf id (s.queue o) =
      resultsOf id (evs.flatMap fun ev => (ev.before.accepted o ev.label.1).toList)) ∧
    (∀ ev ∈ evs, ∀ r, ev.label.2 = some r → ∃ o ids, ev.label.1 = .scan o ids ∧ r.id ∈ ids) ∧
    ((∀ ev ∈ evs, ∀ o, ∀ r ∈ ev.before.queue o, r.id ∉ removed ev.label.1) → s.Live) := by
  refine ⟨fun o id => ?_, fun ev hev r hr => ?_, fun hclear => ?_⟩
  · rw [account_run h o id]
    cases o <;> exact nil_append _
  · obtain ⟨-, -, -, -, hstep, -⟩ := h.of_mem hev
    exact hstep.received_mem hr
  · exact (h.invariant_of (I := Live) (fun s a s' hlive hstep hc => hlive.step hstep hc) hclear
      (fun o r hr => by cases o <;> cases hr)).1

/-- A result is sent by each overload and received, and then the request stops waiting. -/
theorem one_result_is_received :
    ∃ evs s, Trace Step ({} : Response Unit) evs s ∧ s.Live ∧ evs.length = 6 := by
  have hrun := execute_trace (rfl : execute next ({} : Response Unit)
    [.addWaitingTaskId 1, .send .pointer ⟨1, -1, ()⟩, .send .legacy ⟨1, -1, ()⟩, .recv 1,
      .recvWithTimeout {1}, .removeWaitingTaskId 1] = some (_, _))
  refine ⟨_, _, hrun, (results_are_received_once_in_order hrun).2.2 fun ev hev o => ?_, rfl⟩
  cases o <;> revert ev <;> decide

/-- A request that gives up after its result was sent leaves the result behind. -/
theorem a_cancelled_request_leaves_its_result :
    ∃ evs s, Trace Step ({} : Response Unit) evs s ∧ ¬ s.Live := by
  have hrun := execute_trace (rfl : execute next ({} : Response Unit)
    [.addWaitingTaskId 1, .send .pointer ⟨1, -1, ()⟩, .removeWaitingTaskId 1] = some (_, _))
  refine ⟨_, _, hrun, fun hlive => ?_⟩
  have := hlive .pointer ⟨1, -1, ()⟩ (mem_cons_self ..)
  simp [setQueue] at this

end Response
end ExpertStreaming.Server
