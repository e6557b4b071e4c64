import ExpertStreaming.RamCache.Steps

/-! # The RAM expert cache: leases keep their bytes

A lease names an entry. While it is held the entry stays indexed, ready and in
place, so what the caller reads through `lease.data()` is the descriptor's payload
whatever the other threads do.
-/
namespace ExpertStreaming.RamCache
open Lib OrdMap

variable {p : Params} {s u : State} {t : Tid} {d : DescId} {l : LoadId} {a : Action}
  {r : State × Outcome}

def Action.thread? : Action → Option Tid
  | .acquire t _ | .wake t | .join t | .readExtent t | .readThrows t _ _ | .finishRead t
  | .copyByte t | .finishCopy t => some t
  | .tryAcquire _ | .erase _ | .clear | .release _ => none

def Action.released? : Action → Option LeaseId
  | .release i => some i
  | _ => none

def State.asked (s : State) : Action → Option DescId
  | .acquire _ value | .tryAcquire value => value
  | .wake t | .join t | .readExtent t | .readThrows t _ _ | .finishRead t | .copyByte t
  | .finishCopy t => (s.calls.find? t).map Call.desc
  | .erase _ | .clear | .release _ => none

/-! ## What a step does to the leases and to the calls -/

inductive LeaseChange (s : State) (a : Action) : State × Outcome → Prop
  | same {u : State} {o : Outcome} (leases : u.leases = s.leases)
      (next : u.nextLease = s.nextLease) (none : ∀ i, o ≠ .leased i) : LeaseChange s a (u, o)
  | granted {u : State} {e : EntryId} {d : DescId} (asked : s.asked a = some d)
      (leases : u.leases = s.leases.insert s.nextLease ⟨e, d⟩)
      (next : u.nextLease = s.nextLease + 1) : LeaseChange s a (u, .leased s.nextLease)
  | released {u : State} {i : LeaseId} (action : a = .release i)
      (leases : u.leases = s.leases.erase i) (next : u.nextLease = s.nextLease) :
      LeaseChange s a (u, .released)

/-- How the position of a thread inside `acquire` moves. -/
inductive Call.Next : Call → Call → Prop
  | waits (d : DescId) : Next (.admission d) (.admission d)
  | joins (d : DescId) (l : LoadId) : Next (.admission d) (.coalesced d l)
  | admitted (d : DescId) (l : LoadId) : Next (.admission d) (.reading d l 0)
  | read (d : DescId) (l : LoadId) (n : Nat) : Next (.reading d l n) (.reading d l (n + 1))
  | readThrew (d : DescId) (l : LoadId) (n : Nat) (error : CacheError) :
      Next (.reading d l n) (.readFailed d l n error)
  | published (d : DescId) (l : LoadId) (n : Nat) : Next (.reading d l n) (.copying d l 0)
  | copied (d : DescId) (l : LoadId) (n : Nat) : Next (.copying d l n) (.copying d l (n + 1))

variable {w : State} {e : EntryId} {value : Option DescId} {c c₀ : Call} {i : LeaseId}
  {error : CacheError}

theorem Call.Next.desc {c'} (h : c.Next c') : c'.desc = c.desc := by cases h <;> rfl

theorem Call.Next.owned {c'} (h : c.Next c') (ho : c.owned? = some l) :
    c'.owned? = some l := by
  cases h <;> first | exact ho | cases ho

def Outcome.Ends (o : Outcome) : Prop := (∃ i, o = .leased i) ∨ ∃ error, o = .threw error

theorem Outcome.Ends.not_running {o : Outcome} (h : o.Ends) : o ≠ .running := by
  rintro rfl
  rcases h with ⟨i, h⟩ | ⟨error, h⟩ <;> cases h

theorem Hit.ends (h : Hit p s e d r) : r.2.Ends := by
  cases h with
  | threw touched => exact .inr ⟨_, rfl⟩
  | leased touched => exact .inl ⟨_, rfl⟩

/-- What a step does to the threads inside `acquire`: its own may move, or leave with the outcome.
-/
inductive CallChange (s : State) (a : Action) : State × Outcome → Prop
  | same {u : State} {o : Outcome} (calls : u.calls = s.calls)
      (out : ∀ t, a.thread? = some t → o.Ends ∧ s.calls.find? t = none) :
      CallChange s a (u, o)
  | left {u : State} {o : Outcome} {t : Tid} (thread : a.thread? = some t)
      (calls : u.calls = s.calls.erase t) (done : o.Ends) : CallChange s a (u, o)
  | moved {u : State} {t : Tid} {c₀ c : Call} (thread : a.thread? = some t)
      (calls : u.calls = s.calls.insert t c) (next : c₀.Next c)
      (source : s.calls.find? t = some c₀ ∨
        s.calls.find? t = none ∧ ∃ d, a = .acquire t (some d) ∧ c₀ = .admission d)
      (asked : s.asked a = some c₀.desc) : CallChange s a (u, .running)

/-- What a step does to those who use the cache. -/
structure Change (s : State) (a : Action) (r : State × Outcome) : Prop where
  leases : LeaseChange s a r
  calls : CallChange s a r

/-- The same leases are out and the same threads are inside `acquire`. -/
structure SameUsers (s w : State) : Prop where
  leases : w.leases = s.leases
  next : w.nextLease = s.nextLease
  calls : w.calls = s.calls

theorem Quiet.users (h : Quiet s w) : SameUsers s w := ⟨h.leases, h.nextLease, h.calls⟩

theorem Settled.users (h : Settled p s l w) : SameUsers s w := by
  cases h with
  | kept => exact ⟨rfl, rfl, rfl⟩
  | moved => exact ⟨rfl, rfl, rfl⟩

theorem SameUsers.change {o} (h : SameUsers s u) (hnone : ∀ i, o ≠ .leased i)
    (hout : ∀ t, a.thread? = some t → o.Ends ∧ s.calls.find? t = none) : Change s a (u, o) :=
  ⟨.same h.leases h.next hnone, .same h.calls hout⟩

theorem SameUsers.moved (h : SameUsers s w) (hleases : u.leases = w.leases)
    (hnextLease : u.nextLease = w.nextLease) (hcalls : u.calls = w.calls.insert t c)
    (ht : a.thread? = some t) (hnext : c₀.Next c)
    (hsource : s.calls.find? t = some c₀ ∨
      s.calls.find? t = none ∧ ∃ d, a = .acquire t (some d) ∧ c₀ = .admission d)
    (hasked : s.asked a = some c₀.desc) : Change s a (u, .running) where
  leases := .same (hleases.trans h.leases) (hnextLease.trans h.next) fun i h => by cases h
  calls := .moved ht (hcalls.trans (congrArg (insert · t c) h.calls)) hnext hsource hasked

theorem SameUsers.threw (h : SameUsers s w) (hleases : u.leases = w.leases)
    (hnextLease : u.nextLease = w.nextLease) (hcalls : u.calls = w.calls.erase t)
    (ht : a.thread? = some t) : Change s a (u, .threw error) where
  leases := .same (hleases.trans h.leases) (hnextLease.trans h.next) fun i h => by cases h
  calls := .left ht (hcalls.trans (congrArg (erase · t) h.calls)) (.inr ⟨_, rfl⟩)

theorem SameUsers.failLoad (h : SameUsers s w) (hres : ∀ m, (w.loads m).result = m)
    (ht : a.thread? = some t) (l : LoadId) (error : CacheError) :
    Change s a (w.failLoad p t l error) := by
  have hfail := @failLoad_spec p w hres t l error
  exact h.threw hfail.leases hfail.nextLease hfail.calls ht

theorem Hit.leaseChange (h : Hit p w e d r) (hleases : w.leases = s.leases)
    (hnext : w.nextLease = s.nextLease) (hasked : s.asked a = some d) : LeaseChange s a r := by
  cases h with
  | threw touched =>
    have hq := touched.reorders.quiet
    exact .same (hq.leases.trans hleases) (hq.nextLease.trans hnext) fun i h => by cases h
  | @leased u touched =>
    have hq := touched.reorders.quiet
    rw [show u.nextLease = s.nextLease from hq.nextLease.trans hnext]
    refine .granted (e := e) hasked ?_ ?_
    · show u.leases.insert u.nextLease _ = _
      rw [hq.leases, hq.nextLease, hleases, hnext]
    · show u.nextLease + 1 = _
      rw [hq.nextLease, hnext]

theorem Attempted.change (h : Attempted p w t d r) (hw : SameUsers s w) (ht : a.thread? = some t)
    (hsource : s.calls.find? t = some (.admission d) ∨ s.calls.find? t = none ∧
      ∃ d', a = .acquire t (some d') ∧ Call.admission d = .admission d')
    (hasked : s.asked a = some d) : Change s a r := by
  cases h with
  | hit found ready hit =>
    refine ⟨hit.leaseChange hw.leases hw.next hasked, .left ht ?_ hit.ends⟩
    exact hit.calls.trans (congrArg (erase · t) hw.calls)
  | coalesced misses found => exact hw.moved rfl rfl rfl ht (.joins d _) hsource hasked
  | noRoom misses quiet full => exact hw.threw rfl rfl rfl ht
  | waits misses busy => exact hw.moved rfl rfl rfl ht (.waits d) hsource hasked
  | mismatch misses bad => exact hw.threw rfl rfl rfl ht
  | admitted misses admissible sources =>
    exact hw.moved rfl rfl rfl ht (.admitted d _) hsource hasked

theorem ReadFinished.change (h : ReadFinished p w t d l r) (hi : Inv p w) (hw : SameUsers s w)
    (hc : w.calls.find? t = some (.reading d l (p.descriptor d).extents.length))
    (ht : a.thread? = some t) (hasked : s.asked a = some d) : Change s a r := by
  cases h with
  | leasedAway leased =>
    refine SameUsers.failLoad ?_ (fun m => ?_) ht l _
    · exact ⟨hw.leases, hw.next, hw.calls⟩
    · exact hi.layout.result m
  | @duplicate v settled found =>
    obtain ⟨hp, hs, -⟩ := hi.calls.ok t _ hc
    have hv := settled.users
    refine SameUsers.failLoad ⟨?_, ?_, ?_⟩ (fun m => ?_) ht l _
    · exact hv.leases.trans hw.leases
    · exact hv.next.trans hw.next
    · exact hv.calls.trans hw.calls
    · exact (settled.inv hi hp hs).layout.result m
  | published settled published =>
    have hv := settled.users
    refine hw.moved (published.leases.trans hv.leases) (published.nextLease.trans hv.next) ?_ ht
      (.published d l _) (.inl (hw.calls ▸ hc)) hasked
    exact published.calls.trans (congrArg (insert · t _) hv.calls)

theorem CopyFinished.change (h : CopyFinished p s t d l r) (hi : Inv p s)
    (hp : s.Pending p l) (ht : a.thread? = some t) (hasked : s.asked a = some d) :
    Change s a r := by
  cases h with
  | @threw u error touched =>
    have hu := hi.reorders touched.reorders
    exact touched.reorders.quiet.users.failLoad hu.layout.result ht l error
  | @leased u touched =>
    have hq := touched.reorders.quiet
    have hu := hi.reorders touched.reorders
    have herror : (u.loads l).error = none := (hq.error l).trans (hi.layout.load_error l hp)
    have hdone := @complete_spec p u l hu.layout.result herror t d
    show Change s a ((u.complete p t d l).1, .leased u.nextLease)
    rw [show u.nextLease = s.nextLease from hq.nextLease]
    refine ⟨.granted (e := l) hasked ?_ ?_, .left ht ?_ (.inl ⟨_, rfl⟩)⟩
    · rw [hdone.leases, hq.leases, hq.nextLease]
    · rw [hdone.nextLease, hq.nextLease]
    · exact hdone.calls.trans (congrArg (erase · t) hq.calls)

theorem Joined.change (h : Joined p s t d l r) (hi : Inv p s)
    (hc : s.calls.find? t = some (.coalesced d l))
    (hdone : (s.loads l).state = .ready ∨ (s.loads l).state = .failed)
    (ht : a.thread? = some t) (hasked : s.asked a = some d) : Change s a r := by
  cases h with
  | failed found =>
    have hdrop := @dropLoad_spec (s.leave t) l (hi.layout.result l)
    exact SameUsers.threw ⟨rfl, rfl, rfl⟩ hdrop.leases hdrop.nextLease hdrop.calls ht
  | @hit u o none hit =>
    obtain ⟨hres, hready, hd⟩ := hi.joined_ready hc hdone none
    have hu := hit.inv hi hres hready hd
    have hdrop := @dropLoad_spec (u.leave t) l (hu.layout.result l)
    refine ⟨?_, .left ht ?_ hit.ends⟩
    · cases hit.leaseChange (a := a) rfl rfl hasked with
      | same leases next none =>
        exact .same (hdrop.leases.trans leases) (hdrop.nextLease.trans next) none
      | granted asked leases next =>
        exact .granted asked (hdrop.leases.trans leases) (hdrop.nextLease.trans next)
      | released action leases next =>
        exact .released action (hdrop.leases.trans leases) (hdrop.nextLease.trans next)
    · exact hdrop.calls.trans (congrArg (erase · t) hit.calls)

theorem Acquired.change (h : Acquired p s t value r) (hout : s.calls.find? t = none) :
    Change s (.acquire t value) r := by
  have hthrew : ∀ {u : State} {error : CacheError}, SameUsers s u →
      Change s (.acquire t value) (u, .threw error) := fun hu =>
    hu.change (fun i h => by cases h) fun i hi => by cases hi; exact ⟨.inr ⟨_, rfl⟩, hout⟩
  cases h with
  | null => exact hthrew ⟨rfl, rfl, rfl⟩
  | tooLarge large => exact hthrew ⟨rfl, rfl, rfl⟩
  | reused found other => exact hthrew ⟨rfl, rfl, rfl⟩
  | observeThrew observed =>
    have hq := observed.reorders.quiet
    exact hthrew ⟨hq.leases, hq.nextLease, hq.calls⟩
  | @attempted d u r registered observe entering attempted =>
    have hobs := observe_spec registered.retention (p.descriptor d).key
    rw [observe] at hobs
    have hq := hobs.reorders.quiet
    exact attempted.change ⟨hq.leases, hq.nextLease, hq.calls⟩ rfl (.inr ⟨hout, d, rfl, rfl⟩) rfl

theorem TryAcquired.change (h : TryAcquired p s value r) : Change s (.tryAcquire value) r := by
  have hnone : ∀ {u : State} {o : Outcome}, SameUsers s u → (∀ i, o ≠ .leased i) →
      Change s (.tryAcquire value) (u, o) := fun hu ho => hu.change ho fun t h => by cases h
  cases h with
  | null => exact hnone ⟨rfl, rfl, rfl⟩ fun i h => by cases h
  | reused found other => exact hnone ⟨rfl, rfl, rfl⟩ fun i h => by cases h
  | empty misses => exact hnone ⟨rfl, rfl, rfl⟩ fun i h => by cases h
  | observeThrew observed => exact hnone observed.reorders.quiet.users fun i h => by cases h
  | hit same found ready observed hit =>
    have hq := observed.reorders.quiet
    exact ⟨hit.leaseChange hq.leases hq.nextLease rfl, .same (hit.calls.trans hq.calls)
      fun t h => by cases h⟩

theorem asked_of_call (hc : s.calls.find? t = some c) :
    (s.calls.find? t).map Call.desc = some c.desc := by rw [hc]; rfl

theorem asked_of_step {o} (h : Step p s (a, o) u) (ht : a.thread? = some t)
    (hc : s.calls.find? t = some c) : s.asked a = some c.desc := by
  cases a with
  | acquire t' value =>
    cases ht
    simp only [Step, step, hc] at h
    cases h
  | tryAcquire | erase | clear | release => cases ht
  | wake | join | readExtent | readThrows | finishRead | copyByte | finishCopy =>
    cases ht; exact asked_of_call hc

theorem Stepped.change (h : Stepped p s a r) (hi : Inv p s) : Change s a r := by
  have hsame : SameUsers s s := ⟨rfl, rfl, rfl⟩
  cases h with
  | acquire outside acquired => exact acquired.change outside
  | wake call entering attempted =>
    exact attempted.change hsame rfl (.inl call) (asked_of_call call)
  | join call done joined => exact joined.change hi call done rfl (asked_of_call call)
  | readExtent call extent =>
    exact hsame.moved rfl rfl rfl rfl (.read _ _ _) (.inl call) (asked_of_call call)
  | readThrows call extent short =>
    exact hsame.moved rfl rfl rfl rfl (.readThrew _ _ _ _) (.inl call) (asked_of_call call)
  | finishRead call finished =>
    exact finished.change (hi.addBytesRead _ _) ⟨rfl, rfl, rfl⟩ call rfl (asked_of_call call)
  | @readFailed t d l n error call =>
    refine SameUsers.failLoad ?_ (fun m => ?_) rfl l error
    · exact ⟨rfl, rfl, rfl⟩
    · exact hi.layout.result m
  | copyByte call more =>
    exact hsame.moved rfl rfl rfl rfl (.copied _ _ _) (.inl call) (asked_of_call call)
  | finishCopy call finished =>
    exact finished.change hi (hi.calls.ok _ _ call).1 rfl (asked_of_call call)
  | tryAcquire acquired => exact acquired.change
  | erase key =>
    rcases eraseKey_cases hi key with heq | ⟨e, heq, -⟩
    · rw [heq]; exact hsame.change (fun i h => by cases h) fun t h => by cases h
    · rw [heq]; exact SameUsers.change ⟨rfl, rfl, rfl⟩ (fun i h => by cases h) fun t h => by cases h
  | clear =>
    rcases clear_cases p s with heq | heq | ⟨heq, -⟩
    · rw [heq]; exact hsame.change (fun i h => by cases h) fun t h => by cases h
    · rw [heq]; exact hsame.change (fun i h => by cases h) fun t h => by cases h
    · rw [heq]; exact SameUsers.change ⟨rfl, rfl, rfl⟩ (fun i h => by cases h) fun t h => by cases h
  | release found => exact ⟨.released rfl rfl rfl, .same rfl fun t h => by cases h⟩

theorem CallChange.out (h : CallChange s a r) (ht : a.thread? = some t) (hr : r.2 ≠ .running) :
    r.1.calls.find? t = none := by
  cases h with
  | same calls out => exact (congrArg (find? · t) calls).trans (out t ht).2
  | left thread calls done =>
    rw [ht] at thread
    cases thread
    exact (congrArg (find? · t) calls).trans (find?_erase_self _ _)
  | moved thread calls next source asked => exact absurd rfl hr

theorem CallChange.moves (h : CallChange s a r) (ht : a.thread? = some t) (hr : r.2 = .running)
    (hc : s.calls.find? t = some c) :
    ∃ c', r.1.calls.find? t = some c' ∧ c.Next c' := by
  cases h with
  | same calls out => exact absurd hr (out t ht).1.not_running
  | left thread calls done => exact absurd hr done.not_running
  | @moved u i c₀ c' thread calls next source asked =>
    rw [ht] at thread
    cases thread
    refine ⟨c', (congrArg (find? · t) calls).trans (find?_insert_self _ _ _), ?_⟩
    rcases source with hfind | ⟨hnone, -⟩
    · rw [hc] at hfind; cases hfind; exact next
    · rw [hc] at hnone; cases hnone

theorem CallChange.other (h : CallChange s a r) (ht : a.thread? ≠ some t) :
    r.1.calls.find? t = s.calls.find? t := by
  cases h with
  | same calls out => exact congrArg (find? · t) calls
  | @left u o t' thread calls done =>
    have hne : t ≠ t' := fun heq => ht (heq ▸ thread)
    show find? _ t = _
    rw [calls, find?_erase, if_neg hne]
  | @moved u t' c₀ c thread calls next source asked =>
    have hne : t ≠ t' := fun heq => ht (heq ▸ thread)
    show find? _ t = _
    rw [calls, find?_insert_of_ne _ _ hne]

theorem CallChange.source (h : CallChange s a r) {c} (hc : r.1.calls.find? t = some c) :
    (∃ c₀, s.calls.find? t = some c₀ ∧ (c₀ = c ∨ c₀.Next c)) ∨
      ∃ d, a = .acquire t (some d) ∧ (Call.admission d).Next c := by
  cases h with
  | same calls out => exact .inl ⟨c, calls ▸ hc, .inl rfl⟩
  | @left u o t' thread calls done =>
    have hold := (calls_leave (s := s) (t := t') (calls ▸ hc)).2
    exact .inl ⟨c, hold, .inl rfl⟩
  | @moved u t' c₀ c' thread calls next source asked =>
    rcases calls_setCall (s := s) (calls ▸ hc) with ⟨rfl, rfl⟩ | ⟨_, hold⟩
    · rcases source with hfind | ⟨-, d, ha, rfl⟩
      · exact .inl ⟨c₀, hfind, .inr next⟩
      · exact .inr ⟨d, ha, next⟩
    · exact .inl ⟨c, hold, .inl rfl⟩

theorem CallChange.ends (h : CallChange s a r) (ht : a.thread? = some t) :
    r.2 = .running ∨ r.2.Ends := by
  cases h with
  | same calls out => exact .inr (out t ht).1
  | left thread calls done => exact .inr done
  | moved thread calls next source asked => exact .inl rfl

theorem LeaseChange.leased (h : LeaseChange s a r) (hr : r.2 = .leased i)
    (hasked : s.asked a = some d) : ∃ x, r.1.leases.find? i = some x ∧ x.desc = d := by
  cases h with
  | same leases next none => exact absurd hr (none i)
  | @granted u e d' asked leases next =>
    cases hr
    rw [asked] at hasked
    cases hasked
    exact ⟨⟨e, d⟩, (congrArg (find? · s.nextLease) leases).trans
      (find?_insert_self _ _ _), rfl⟩
  | released action leases next => cases hr

theorem CallChange.running (h : CallChange s a r) (ht : a.thread? = some t)
    (hr : r.2 = .running) (hasked : s.asked a = some d) :
    ∃ c, r.1.calls.find? t = some c ∧ c.desc = d := by
  cases h with
  | same calls out => exact absurd hr (out t ht).1.not_running
  | left thread calls done => exact absurd hr done.not_running
  | @moved u i c₀ c thread calls next source asked =>
    rw [ht] at thread
    cases thread
    rw [asked] at hasked
    cases hasked
    exact ⟨c, (congrArg (find? · t) calls).trans (find?_insert_self _ _ _), next.desc⟩

/-! ## Runs -/

abbrev CacheEvent := Event State (Action × Outcome)

def exec (p : Params) (s : State) (schedule : List Action) : Option (List CacheEvent × State) :=
  execute (step p) s schedule

variable {evs : List CacheEvent}

theorem exec_trace {schedule} (h : exec p s schedule = some (evs, u)) :
    Trace (Step p) s evs u := execute_trace h

def LastAcquire (evs : List CacheEvent) (t : Tid) (d : DescId) : Prop :=
  ∃ pre ev post, evs = pre ++ ev :: post ∧ ev.label.1 = .acquire t (some d) ∧
    ∀ e ∈ post, ∀ value, e.label.1 ≠ .acquire t value

/-- The descriptor a step's operation was called with, after the events `evs`. -/
inductive Requested (evs : List CacheEvent) : Action → DescId → Prop
  | acquire (t : Tid) (d : DescId) : Requested evs (.acquire t (some d)) d
  | tryAcquire (d : DescId) : Requested evs (.tryAcquire (some d)) d
  | resumed {a : Action} {t : Tid} {d : DescId} (thread : a.thread? = some t)
      (inside : ∀ value, a ≠ .acquire t value) (last : LastAcquire evs t d) : Requested evs a d

theorem calls_requested (run : Trace (Step p) s evs u) (hi : Inv p s)
    (hc : u.calls.find? t = some c) :
    (∃ c₀, s.calls.find? t = some c₀ ∧ c₀.desc = c.desc ∧
      ∀ e ∈ evs, ∀ value, e.label.1 ≠ .acquire t value) ∨ LastAcquire evs t c.desc := by
  induction run with
  | nil s => exact .inl ⟨c, hc, rfl, by simp⟩
  | @cons s a s' evs u hs rest ih =>
    have hstep := step_cases hi hs
    rcases ih (hstep.inv hi) hc with ⟨c₁, hc₁, hdesc, hno⟩ | ⟨pre, ev, post, heq, hev, hno⟩
    · rcases (hstep.change hi).calls.source hc₁ with ⟨c₀, hc₀, hnext⟩ | ⟨d, ha, hnext⟩
      · have hdesc₀ : c₀.desc = c₁.desc := by
          rcases hnext with rfl | hnext
          · rfl
          · exact hnext.desc.symm
        refine .inl ⟨c₀, hc₀, hdesc₀.trans hdesc, ?_⟩
        intro e he value
        rcases List.mem_cons.mp he with rfl | he
        · -- a thread inside `acquire` cannot enter it
          intro ha
          simp only [Step] at hs
          change a.1 = _ at ha
          rw [ha, step, hc₀] at hs
          cases hs
        · exact hno e he value
      · have hd : d = c.desc := hnext.desc.symm.trans hdesc
        exact .inr ⟨[], _, evs, rfl, hd ▸ ha, hno⟩
    · exact .inr ⟨_ :: pre, ev, post, by rw [heq]; rfl, hev, hno⟩

theorem requested_of_asked {s₀} (run : Trace (Step p) s₀ evs s) (hinit : Init s₀)
    (h : s.asked a = some d) :
    Requested evs a d := by
  obtain ⟨staging, arena, rfl⟩ := hinit
  have hresumed : ∀ t, a.thread? = some t → (∀ value, a ≠ .acquire t value) →
      (s.calls.find? t).map Call.desc = some d →
      Requested evs a d := by
    intro t ht hinside hdesc
    cases hc : s.calls.find? t with
    | none => rw [hc] at hdesc; cases hdesc
    | some c =>
      rw [hc] at hdesc
      cases hdesc
      rcases calls_requested run (Inv.initial p staging arena) hc with ⟨c₀, hc₀, -⟩ | hlast
      · cases hc₀
      · exact .resumed ht hinside hlast
  cases a with
  | acquire t value => cases h; exact .acquire t d
  | tryAcquire value => cases h; exact .tryAcquire d
  | wake t => exact hresumed t rfl nofun h
  | join t => exact hresumed t rfl nofun h
  | readExtent t => exact hresumed t rfl nofun h
  | readThrows t junk text => exact hresumed t rfl nofun h
  | finishRead t => exact hresumed t rfl nofun h
  | copyByte t => exact hresumed t rfl nofun h
  | finishCopy t => exact hresumed t rfl nofun h
  | erase key => cases h
  | clear => cases h
  | release i => cases h

theorem Stepped.lease_kept {x} (h : Stepped p s a r) (hi : Inv p s) (hx : s.leases.find? i = some x)
    (hne : a ≠ .release i) : r.1.leases.find? i = some x := by
  cases (h.change hi).leases with
  | same leases next none => exact leases ▸ hx
  | granted asked leases next =>
    have hold : i ≠ s.nextLease := (hi.pins.lease_fresh i x hx).ne
    show find? _ i = some x
    rw [leases, find?_insert_of_ne _ _ hold]; exact hx
  | @released u j action leases next =>
    have hij : i ≠ j := by rintro rfl; exact hne action
    show find? _ i = some x
    rw [leases, find?_erase, if_neg hij]; exact hx

theorem lease_kept {x} (run : Trace (Step p) s evs u) (hi : Inv p s)
    (hx : s.leases.find? i = some x) (hkept : ∀ ev ∈ evs, ev.label.1 ≠ .release i) :
    u.leases.find? i = some x := by
  have hrun := run.invariant_of (I := fun s => Inv p s ∧ s.leases.find? i = some x)
    (C := fun ev => ev.label.1 ≠ .release i)
    (fun s a s' h hs hne => ⟨h.1.step hs, (step_cases h.1 hs).lease_kept h.1 h.2 hne⟩) hkept
    ⟨hi, hx⟩
  exact hrun.1.2

theorem Inv.lease_payload (hi : Inv p s) {x} (hx : s.leases.find? i = some x) :
    ∃ off, (s.heap x.entry).data = some off ∧
      s.arena.read off (p.descriptor x.desc).bytes = payload p x.desc := by
  obtain ⟨hres, hready, hd⟩ := hi.pins.lease i x hx
  have hread := hi.contents x.entry hres hready
  rw [State.bytesOf, hd] at hread
  exact ⟨_, hi.layout.entry_data x.entry hres, hread⟩

def State.Protected (p : Params) (s : State) (l : LoadId) (e : EntryId) : Prop :=
  s.Resident p e ∧ (s.heap e).ready = true ∨ (s.heap e).pins ≠ 0 ∨
    ∃ m, m ≠ l ∧ s.Pending p m ∧ (s.loads m).state = .copying ∧ (s.loads m).result = e

theorem Inv.copy_clear (hi : Inv p s) {n} (hc : s.calls.find? t = some (.copying d l n))
    (hlt : n < (p.descriptor d).bytes) (he : s.Protected p l e) :
    ¬ (s.region p e).Contains ((s.loads l).arenaOffset + n) := by
  obtain ⟨hres, hready, hoff⟩ := hi.copying_resident hc
  obtain ⟨-, hs, hd, -⟩ := hi.calls.ok t _ hc
  have hin : (s.region p l).Contains ((s.loads l).arenaOffset + n) := by
    have hbytes : s.bytesOf p l = (p.descriptor d).bytes := by rw [State.bytesOf, hd]
    simp only [Region.Contains, Region.stop, State.region, hoff, hbytes]
    omega
  -- whatever protects the entry, it is indexed and is not the one being copied
  have hother : s.Resident p e ∧ e ≠ l := by
    rcases he with ⟨her, hr⟩ | hpin | ⟨m, hml, hpm, hsm, hme⟩
    · refine ⟨her, ?_⟩
      rintro rfl
      rw [hready] at hr; cases hr
    · by_cases hdone : s.Completing e
      · refine ⟨(hi.pins.completing e hdone).1, ?_⟩
        rintro rfl
        rw [(hi.pins.completing e hdone).2] at hready; cases hready
      · have hcount := hi.pins.count e
        unfold State.Completing at hdone
        rw [State.completionPin, if_neg hdone, Nat.add_zero] at hcount
        obtain ⟨i, x, hx, hxe⟩ : ∃ i x, s.leases.find? i = some x ∧ x.entry = e := by
          by_contra hno
          push Not at hno
          refine hpin (hcount.trans (sumBy_eq_zero fun i x hx => ?_))
          exact if_neg (hno i x hx)
        obtain ⟨hr, hrdy, -⟩ := hi.pins.lease i x hx
        rw [hxe] at hr hrdy
        refine ⟨hr, ?_⟩
        rintro rfl
        rw [hready] at hrdy; cases hrdy
    · rw [hi.layout.result] at hme
      subst hme
      exact ⟨(hi.layout.copying hpm hsm).1, hml⟩
  exact (hi.layout.entry_apart l e hres hother.1 hother.2.symm).not_contains hin

/-- **A lease's bytes are its descriptor's source bytes for as long as it is held,
and no publication copy writes a byte of a protected entry.** -/
theorem leased_bytes_are_source_bytes {s₀ : State} {evs : List CacheEvent} (hinit : Init s₀)
    (run : Trace (Step p) s₀ evs s) :
    (∀ pre ev post i, evs = pre ++ ev :: post → ev.label.2 = .leased i →
      (∀ later ∈ post, later.label.1 ≠ .release i) →
      ∃ d x off, Requested pre ev.label.1 d ∧ s.leases.find? i = some x ∧ x.desc = d ∧
        (s.heap x.entry).data = some off ∧
        s.arena.read off (p.descriptor d).bytes = payload p d) ∧
    (∀ t d l n e, s.calls.find? t = some (.copying d l n) → n < (p.descriptor d).bytes →
      s.Protected p l e → ¬ (s.region p e).Contains ((s.loads l).arenaOffset + n)) := by
  have hreach : ∀ {evs s}, Trace (Step p) s₀ evs s → Inv p s := fun h =>
    Reached.inv ⟨s₀, _, hinit, h⟩
  refine ⟨?_, fun t d l n e hc hlt he => (hreach run).copy_clear hc hlt he⟩
  intro pre ev post i hevs hout hkept
  subst hevs
  obtain ⟨before, hpre, hrest⟩ := run.split
  cases hrest with
  | @cons _ a after _ _ hs hpost =>
    have hi := hreach hpre
    have hstep := step_cases hi hs
    -- the step that returned the lease recorded it for the descriptor asked for
    obtain ⟨d, e, hasked, hx⟩ : ∃ d e, before.asked a.1 = some d ∧
        after.leases.find? i = some ⟨e, d⟩ := by
      obtain ⟨act, o⟩ := a
      dsimp only at hout
      subst hout
      generalize hr : (after, Outcome.leased i) = r at hstep
      have hchange := (hstep.change hi).leases
      cases hchange with
      | same leases next none => cases hr; exact absurd rfl (none i)
      | granted asked leases next =>
        cases hr
        exact ⟨_, _, asked, by rw [leases]; exact find?_insert_self _ _ _⟩
      | released action leases next => cases hr
    have hend := lease_kept hpost (hstep.inv hi) hx hkept
    obtain ⟨off, hdata, hread⟩ := (hreach run).lease_payload hend
    exact ⟨d, _, off, requested_of_asked hpre hinit hasked, hend, rfl, hdata, hread⟩

/-! ## A small cache -/

/-- Two arena slots and one byte of staging, over one source. -/
def tinyCache (frequencyRetention : Bool) : Params where
  config :=
    { capacityBytes := 128, stagingBytes := 1, frequencyRetention := frequencyRetention,
      capacity_pos := by decide, staging_pos := by decide, staging_le := by decide,
      capacity_le := by decide }
  sources := OrdMap.empty.insert 0
    { identity := ⟨1, 1⟩, backend := .pread, size := 256, contents := fun i => UInt8.ofNat (i + 7) }
  descriptor := fun d =>
    { key := ⟨0, d, .gate⟩, extents := [⟨0, ⟨1, 1⟩, d, 1⟩], bytes := 1, bytes_pos := by decide,
      bytes_eq := rfl }

def zeroed : Memory UInt8 := fun _ => 0

def loadSteps (t : Tid) (d : DescId) : List Action :=
  [.acquire t (some d), .readExtent t, .finishRead t, .copyByte t]

theorem leased_bytes_in_tinyCache :
    ∃ evs s u, exec (tinyCache true) (.initial zeroed zeroed) (loadSteps 0 3) = some (evs, s) ∧
      step (tinyCache true) s (.finishCopy 0) = some (u, .leased 0) ∧
      ∃ d x off, Requested evs (.finishCopy 0) d ∧ u.leases.find? 0 = some x ∧ x.desc = d ∧
        (u.heap x.entry).data = some off ∧ u.arena.read off 1 = payload (tinyCache true) d := by
  have hlast : ((exec (tinyCache true) (.initial zeroed zeroed) (loadSteps 0 3)).bind fun r =>
      (step (tinyCache true) r.2 (.finishCopy 0)).map Prod.snd) = some (.leased 0) := by
    decide +kernel
  obtain ⟨⟨evs, s⟩, hexec, hmap⟩ := Option.bind_eq_some_iff.mp hlast
  obtain ⟨⟨u, o⟩, hstep, ho⟩ := Option.map_eq_some_iff.mp hmap
  cases ho
  have hs : Step (tinyCache true) s (.finishCopy 0, .leased 0) u := hstep
  have hall := leased_bytes_are_source_bytes ⟨zeroed, zeroed, rfl⟩ ((exec_trace hexec).snoc hs)
  exact ⟨evs, s, u, hexec, hstep, hall.1 evs _ [] 0 rfl rfl (by simp)⟩

end ExpertStreaming.RamCache
