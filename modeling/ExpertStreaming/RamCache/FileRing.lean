import Mathlib.Algebra.Ring.Nat
import Mathlib.Data.List.Perm.Basic

/-! # Reading through one io_uring

A file source reads through a ring that outlives its calls. A submission carries a tag that starts
at 1 again in every call, and the next completion is taken for the call's own. From an idle ring
that is right, and a call that fails leaves the ring idle unless an `io_uring_enter` failed, took
too little or came back too early; what such a call leaves behind is taken for the next call's.
-/
namespace ExpertStreaming.FileRing
open List Option

/-! ## The ring -/

structure Sqe where
  off : Nat
  addr : Nat
  len : Nat
  userData : Nat

structure Cqe where
  userData : Nat
  res : Int

/-- Entries not yet taken by the kernel, reads under way, and completions not yet retired. -/
structure Ring where
  queued : List Sqe := []
  flying : List Sqe := []
  posted : List Cqe := []
  memory : Nat → UInt8

def Ring.Idle (r : Ring) : Prop := r.queued = [] ∧ r.flying = [] ∧ r.posted = []

/-- How an `io_uring_enter` comes back, repeated while interrupted: with an error or the entries
it took, and the reads completed by then. -/
structure Answer where
  submitted : Option Nat
  done : List (Nat × Int) := []

variable (file : Nat → UInt8)

def Ring.complete (r : Ring) (done : Nat × Int) : Ring :=
  match r.flying[done.1]? with
  | none => r
  | some s =>
    let res := min done.2 s.len
    { r with
      flying := r.flying.eraseIdx done.1
      posted := r.posted ++ [⟨s.userData, res⟩]
      memory := fun a =>
        if s.addr ≤ a ∧ a < s.addr + res.toNat then file (s.off + (a - s.addr)) else r.memory a }

def Ring.take (r : Ring) (n : Nat) : Ring :=
  { r with flying := r.flying ++ r.queued.take n, queued := r.queued.drop n }

def enter (toSubmit : Nat) (a : Answer) (r : Ring) : Option Nat × Ring :=
  match a.submitted with
  | none => (none, a.done.foldl (Ring.complete file) r)
  | some n =>
    let n := min n (min toSubmit r.queued.length)
    (some n, a.done.foldl (Ring.complete file) (r.take n))

/-! ## The calls -/

inductive ReadError where
  | outside | nullDestination | submitFailed | noCompletion | invalidIdentity | readFailed | short
  | batchOutside | batchNullDestination | batchSubmitFailed | batchSubmitShort | batchWaitFailed
  | batchInvalidIdentity | batchReadFailed | batchShort
  deriving DecidableEq

/-- The text of the exception, where there is one without the system's. -/
def ReadError.text : ReadError → String
  | .outside => "expert file read is outside source bounds"
  | .nullDestination => "expert file read destination cannot be null"
  | .submitFailed => "io_uring submit failed for expert source: "
  | .noCompletion => "io_uring returned without an expert read completion"
  | .invalidIdentity => "io_uring expert read returned invalid completion identity"
  | .readFailed => "io_uring expert read failed: "
  | .short => "io_uring expert read completed short"
  | .batchOutside => "expert file batch read is outside source bounds"
  | .batchNullDestination => "expert file batch read destination cannot be null"
  | .batchSubmitFailed => "io_uring batch submit failed for expert source: "
  | .batchSubmitShort => "io_uring batch submission completed short"
  | .batchWaitFailed => "io_uring batch wait failed for expert source: "
  | .batchInvalidIdentity => "io_uring batch returned invalid completion identity"
  | .batchReadFailed => "io_uring batch read failed for expert source: "
  | .batchShort => "io_uring batch read completed short"

def ReadError.Strands (e : ReadError) : Prop :=
  e = .submitFailed ∨ e = .noCompletion ∨ e = .batchSubmitFailed ∨ e = .batchSubmitShort ∨
    e = .batchWaitFailed

/-- How a call ends: its result, the ring and the answers it has not used. -/
structure Out where
  result : Except ReadError Unit
  ring : Ring
  answers : List Answer

def uintMax : Nat := 2 ^ 32 - 1

/-- `source::read_request`. -/
structure Request where
  offset : Nat
  destination : Nat
  length : Nat

/-- The loop of `read_exact` over chunks of at most `UINT_MAX` bytes; `none` has not come back. -/
def readLoop (q : Request) : Nat → Nat → Ring → List Answer → Option Out
  | 0, _, _, _ => none
  | fuel + 1, completed, r, answers =>
    if q.length ≤ completed then some ⟨.ok (), r, answers⟩
    else
      let chunk := min (q.length - completed) uintMax
      let s : Sqe := ⟨q.offset + completed, q.destination + completed, chunk, completed + 1⟩
      match answers with
      | [] => none
      | a :: answers =>
        match enter file 1 a { r with queued := r.queued ++ [s] } with
        | (none, r) => some ⟨.error .submitFailed, r, answers⟩
        | (some _, r) =>
          match r.posted with
          | [] => some ⟨.error .noCompletion, r, answers⟩
          | c :: rest =>
            let r := { r with posted := rest }
            if c.userData ≠ completed + 1 then some ⟨.error .invalidIdentity, r, answers⟩
            else if c.res < 0 then some ⟨.error .readFailed, r, answers⟩
            else if c.res ≠ chunk then some ⟨.error .short, r, answers⟩
            else readLoop q fuel (completed + chunk) r answers

/-- `read_exact` for a file of `size` bytes; address zero is the null pointer. -/
def readExact (size : Nat) (q : Request) (r : Ring) (answers : List Answer) : Option Out :=
  if 2 ^ 64 ≤ q.offset + q.length ∨ size < q.offset + q.length then
    some ⟨.error .outside, r, answers⟩
  else if q.length = 0 then some ⟨.ok (), r, answers⟩
  else if q.destination = 0 then some ⟨.error .nullDestination, r, answers⟩
  else readLoop file q (q.length + 1) 0 r answers

def readEach (size : Nat) : List Request → Ring → List Answer → Option Out
  | [], r, answers => some ⟨.ok (), r, answers⟩
  | q :: rest, r, answers => do
    let out ← readExact file size q r answers
    match out.result with
    | .error _ => some out
    | .ok _ => readEach size rest out.ring out.answers

def await (count : Nat) : List Answer → Ring → Option (Bool × Ring × List Answer)
  | answers, r =>
    if count ≤ r.posted.length then some (true, r, answers)
    else match answers with
      | [] => none
      | a :: answers =>
        match enter file 0 a r with
        | (none, r) => some (false, r, answers)
        | (some _, r) => await count answers r

def validate (batch : List Request) : List Nat → List Cqe → Except ReadError Unit
  | _, [] => .ok ()
  | seen, c :: rest =>
    if c.userData = 0 ∨ batch.length < c.userData ∨ c.userData ∈ seen then
      .error .batchInvalidIdentity
    else if c.res < 0 then .error .batchReadFailed
    else if (batch[c.userData - 1]?.map fun q => (q.length : Int)) ≠ some c.res then
      .error .batchShort
    else validate batch (c.userData :: seen) rest

def entriesOf (batch : List Request) : List Sqe :=
  batch.zipIdx.map fun q => ⟨q.1.offset, q.1.destination, q.1.length, q.2 + 1⟩

def readBatch (batch : List Request) (r : Ring) : List Answer → Option Out
  | [] => none
  | a :: answers =>
    match enter file batch.length a { r with queued := r.queued ++ entriesOf batch } with
    | (none, r) => some ⟨.error .batchSubmitFailed, r, answers⟩
    | (some n, r) =>
      if n ≠ batch.length then some ⟨.error .batchSubmitShort, r, answers⟩
      else do
        let w ← await file batch.length answers r
        if w.1 = false then some ⟨.error .batchWaitFailed, w.2.1, w.2.2⟩
        else some ⟨validate batch [] (w.2.1.posted.take batch.length),
          { w.2.1 with posted := w.2.1.posted.drop batch.length }, w.2.2⟩

/-- The rounds of `read_many`, `entries` requests each; `fuel` bounds their number. -/
def readBatches (entries : Nat) : Nat → List Request → Ring → List Answer → Option Out
  | _, [], r, answers => some ⟨.ok (), r, answers⟩
  | 0, _ :: _, _, _ => none
  | fuel + 1, q :: qs, r, answers => do
    let out ← readBatch file ((q :: qs).take entries) r answers
    match out.result with
    | .error _ => some out
    | .ok _ => readBatches entries fuel ((q :: qs).drop entries) out.ring out.answers

def checkRequests (size : Nat) (requests : List Request) : Except ReadError Unit :=
  requests.forM fun q =>
    if 2 ^ 64 ≤ q.offset + q.length ∨ size < q.offset + q.length then .error .batchOutside
    else if q.length ≠ 0 ∧ q.destination = 0 then .error .batchNullDestination
    else .ok ()

def readMany (size entries : Nat) (requests : List Request) (r : Ring) (answers : List Answer) :
    Option Out :=
  match checkRequests size requests with
  | .error e => some ⟨.error e, r, answers⟩
  | .ok _ =>
    if requests.any fun q => uintMax < q.length then readEach file size requests r answers
    else readBatches file entries requests.length requests r answers

inductive Call where
  | exact (request : Request)
  | many (requests : List Request)

def Call.requests : Call → List Request
  | .exact q => [q]
  | .many qs => qs

def call (size entries : Nat) : Call → Ring → List Answer → Option Out
  | .exact q, r, answers => readExact file size q r answers
  | .many qs, r, answers => readMany file size entries qs r answers

/-- A series of calls on one ring, each with the kernel's answers to it. -/
def run (size entries : Nat) : Ring → List (Call × List Answer) → Option (List (Call × Out))
  | _, [] => some []
  | r, (c, answers) :: rest => do
    let out ← call file size entries c r answers
    let later ← run size entries out.ring rest
    some ((c, out) :: later)

/-! ## Reads of one call -/

def Covers (m : Nat → UInt8) (off addr len : Nat) : Prop := ∀ k < len, m (addr + k) = file (off + k)

def Sqe.Holds (s : Sqe) (a : Nat) : Prop := s.addr ≤ a ∧ a < s.addr + s.len

def Sqe.Apart (s t : Sqe) : Prop := ∀ a, s.Holds a → ¬ t.Holds a

/-- Every entry of the ring is one of `own`, and the reads of `finished` are to be retired. -/
structure Served (own : List Sqe) (m : Nat → UInt8) (r : Ring) (finished : List (Sqe × Int)) :
    Prop where
  posted : r.posted = finished.map fun f => ⟨f.1.userData, f.2⟩
  perm : (finished.map Prod.fst ++ (r.flying ++ r.queued)).Perm own
  filled : ∀ f ∈ finished, f.2 = f.1.len → Covers file r.memory f.1.off f.1.addr f.1.len
  frame : ∀ a, (∀ s ∈ own, ¬ s.Holds a) → r.memory a = m a

variable {file} {own : List Sqe} {m : Nat → UInt8} {r : Ring} {finished : List (Sqe × Int)}

theorem Served.complete (hown : own.Pairwise Sqe.Apart) (h : Served file own m r finished)
    (done : Nat × Int) : ∃ finished', Served file own m (r.complete file done) finished' := by
  unfold Ring.complete
  split
  · exact ⟨finished, h⟩
  next s hs =>
  obtain ⟨hi, heq⟩ := List.getElem?_eq_some_iff.mp hs
  have hmem : s ∈ r.flying ++ r.queued := mem_append_left _ (mem_of_getElem? hs)
  have happart := pairwise_append.mp
    (h.perm.symm.pairwise hown fun hst a ht hs => hst a hs ht)
  have hres : (min done.2 s.len).toNat ≤ s.len := by omega
  refine ⟨finished ++ [(s, min done.2 s.len)], by simp [h.posted], ?_, fun f hf hlen k hk => ?_,
    fun a ha => ?_⟩
  · have herase := (getElem_cons_eraseIdx_perm hi).append_right r.queued
    rw [heq] at herase
    refine List.Perm.trans ?_ h.perm
    simpa using herase.append_left (finished.map Prod.fst)
  · dsimp only
    rcases mem_append.mp hf with hf | hf
    · rw [if_neg fun hin => ?_]
      · exact h.filled f hf hlen k hk
      · exact happart.2.2 f.1 (mem_map_of_mem hf) s hmem _ ⟨by omega, by omega⟩
          ⟨hin.1, by omega⟩
    · obtain rfl := mem_singleton.mp hf
      dsimp only at hlen hk ⊢
      rw [if_pos ⟨by omega, by omega⟩, Nat.add_sub_cancel_left]
  · dsimp only
    rw [if_neg fun hin => ha s (h.perm.subset (mem_append_right _ hmem)) ⟨hin.1, by omega⟩]
    exact h.frame a ha

theorem Served.enter (hown : own.Pairwise Sqe.Apart) (h : Served file own m r finished)
    (toSubmit : Nat) (a : Answer) :
    ∃ finished', Served file own m (enter file toSubmit a r).2 finished' := by
  have hfold : ∀ (done : List (Nat × Int)) (r : Ring) (finished : List (Sqe × Int)),
      Served file own m r finished →
      ∃ finished', Served file own m (done.foldl (Ring.complete file) r) finished' := by
    intro done
    induction done with
    | nil => exact fun r finished h => ⟨finished, h⟩
    | cons d rest ih =>
      intro r finished h
      obtain ⟨finished', h'⟩ := h.complete hown d
      exact ih _ _ h'
  unfold FileRing.enter
  split
  · exact hfold _ _ _ h
  · refine hfold _ _ _ ⟨h.posted, ?_, h.filled, h.frame⟩
    simpa [Ring.take] using h.perm

theorem served_start (hidle : r.Idle) (own : List Sqe) :
    Served file own r.memory { r with queued := r.queued ++ own } [] := by
  obtain ⟨hqueued, hflying, hposted⟩ := hidle
  exact ⟨hposted, by simp [hqueued, hflying], fun _ hf => (nomatch hf), fun _ _ => rfl⟩

theorem Served.all_done (h : Served file own m r finished) (hall : own.length ≤ r.posted.length) :
    r.flying = [] ∧ r.queued = [] ∧ r.posted.length = own.length ∧
      (finished.map Prod.fst).Perm own := by
  have hlength := h.perm.length_eq
  have hposted := congrArg length h.posted
  simp only [length_append, length_map] at hlength hposted
  have hflying : r.flying = [] := length_eq_zero_iff.mp (by omega)
  have hqueued : r.queued = [] := length_eq_zero_iff.mp (by omega)
  refine ⟨hflying, hqueued, by omega, ?_⟩
  simpa [hflying, hqueued] using h.perm

/-! ## Calls from an idle ring -/

def Request.Holds (q : Request) (a : Nat) : Prop :=
  q.destination ≤ a ∧ a < q.destination + q.length

def Request.Apart (q q' : Request) : Prop := ∀ a, q.Holds a → ¬ q'.Holds a

variable (file) in
/-- How a call ends: the ring is idle unless the error strands entries, and the destinations are
filled if there is none. -/
structure Ends (requests : List Request) (m : Nat → UInt8) (out : Out) : Prop where
  idle : (∀ e, out.result = .error e → ¬ e.Strands) → out.ring.Idle
  filled : out.result = .ok () → ∀ q ∈ requests,
    Covers file out.ring.memory q.offset q.destination q.length
  frame : ∀ a, (∀ q ∈ requests, ¬ q.Holds a) → out.ring.memory a = m a

theorem Ends.stopped {requests : List Request} {e : ReadError} {answers : List Answer}
    (hidle : ¬ e.Strands → r.Idle) (hframe : ∀ a, (∀ q ∈ requests, ¬ q.Holds a) → r.memory a = m a) :
    Ends file requests m ⟨.error e, r, answers⟩ :=
  ⟨fun h => hidle (h e rfl), fun h => (nomatch h), hframe⟩

theorem Served.single {s : Sqe} {c rest} (h : Served file [s] m r finished)
    (hposted : r.posted = c :: rest) : { r with posted := rest }.Idle ∧ c.userData = s.userData ∧
      (c.res = s.len → Covers file r.memory s.off s.addr s.len) := by
  obtain ⟨hflying, hqueued, hlength, hperm⟩ := h.all_done (by simp [hposted])
  obtain ⟨f, rfl⟩ : ∃ f, finished = [f] := length_eq_one_iff.mp (by simpa using hperm.length_eq)
  obtain rfl : f.1 = s := by simpa using hperm
  have heq := hposted ▸ h.posted
  simp only [map_cons, map_nil, cons.injEq] at heq
  obtain ⟨rfl, rfl⟩ := heq
  exact ⟨⟨hqueued, hflying, rfl⟩, rfl, h.filled f (by simp)⟩

theorem readLoop_ends (q : Request) {out : Out} : ∀ (fuel completed : Nat) (r : Ring)
    (answers : List Answer), r.Idle → completed ≤ q.length →
      Covers file r.memory q.offset q.destination completed →
      (∀ a, ¬ q.Holds a → r.memory a = m a) →
      readLoop file q fuel completed r answers = some out → Ends file [q] m out
  | 0, _, _, _, _, _, _, _, h => by cases h
  | fuel + 1, completed, r, answers, hidle, hle, hcovers, hframe, h => by
    unfold readLoop at h
    split at h
    next hdone =>
      obtain rfl := some.inj h
      obtain rfl : completed = q.length := by omega
      exact ⟨fun _ => hidle, fun _ q' hq' => by rwa [mem_singleton.mp hq'],
        fun a ha => hframe a (ha q (by simp))⟩
    next hmore =>
    dsimp only at h
    split at h
    · cases h
    next a answers =>
    have hchunk : completed + min (q.length - completed) uintMax ≤ q.length := by omega
    generalize min (q.length - completed) uintMax = chunk at h hchunk
    obtain ⟨finished, hserved⟩ := (@served_start file r hidle [⟨q.offset + completed,
      q.destination + completed, chunk, completed + 1⟩]).enter (pairwise_singleton _ _) 1 a
    generalize enter file 1 a _ = e at h hserved
    obtain ⟨n, r'⟩ := e
    have hsame : ∀ x, ¬ (q.destination + completed ≤ x ∧ x < q.destination + completed + chunk) →
        r'.memory x = r.memory x := fun x hx =>
      hserved.frame x fun s hs => by rwa [mem_singleton.mp hs]
    have hstep : ∀ x, ¬ q.Holds x → r'.memory x = m x := fun x hx => by
      refine (hsame x fun hin => hx ⟨by omega, by omega⟩).trans (hframe x hx)
    have hframe' : ∀ x, (∀ q' ∈ [q], ¬ q'.Holds x) → r'.memory x = m x := fun x hx =>
      hstep x (hx q (by simp))
    cases n with
    | none =>
      cases h
      exact .stopped (fun hne => absurd (.inl rfl) hne) hframe'
    | some n =>
      dsimp only at h
      cases hposted : r'.posted with
      | nil =>
        rw [hposted] at h
        cases h
        exact .stopped (fun hne => absurd (.inr (.inl rfl)) hne) hframe'
      | cons c rest =>
        rw [hposted] at h
        dsimp only at h
        obtain ⟨hidle', -, hfilled⟩ := hserved.single hposted
        split at h
        · cases h
          exact .stopped (fun _ => hidle') hframe'
        split at h
        · cases h
          exact .stopped (fun _ => hidle') hframe'
        split at h
        · cases h
          exact .stopped (fun _ => hidle') hframe'
        next hres =>
        refine readLoop_ends q fuel _ _ answers hidle' hchunk (fun k hk => ?_) hstep h
        rcases Nat.lt_or_ge k completed with hlt | hge
        · exact (hsame _ (by omega)).trans (hcovers k hlt)
        · have hk' := hfilled (not_not.mp hres) (k - completed)
            (show k - completed < chunk by omega)
          rwa [show q.destination + completed + (k - completed) = q.destination + k by omega,
            show q.offset + completed + (k - completed) = q.offset + k by omega] at hk'

theorem readExact_ends {size : Nat} {q : Request} {answers : List Answer} {out : Out}
    (hidle : r.Idle) (h : readExact file size q r answers = some out) :
    Ends file [q] r.memory out := by
  unfold readExact at h
  split at h
  · cases h
    exact .stopped (fun _ => hidle) fun _ _ => rfl
  split at h
  next hzero =>
    cases h
    exact ⟨fun _ => hidle, fun _ q' hq' k hk => by rw [mem_singleton.mp hq'] at hk; omega,
      fun _ _ => rfl⟩
  split at h
  · cases h
    exact .stopped (fun _ => hidle) fun _ _ => rfl
  · exact readLoop_ends q _ 0 r answers hidle (Nat.zero_le _) (fun k hk => by omega)
      (fun _ _ => rfl) h

theorem Ends.append_left {xs ys : List Request} {out : Out} (h : Ends file xs m out)
    (hfailed : out.result ≠ .ok ()) : Ends file (xs ++ ys) m out :=
  ⟨h.idle, fun hok => absurd hok hfailed,
    fun a ha => h.frame a fun q hq => ha q (mem_append_left _ hq)⟩

theorem Ends.append {xs ys : List Request} {out out' : Out} (h : Ends file xs m out)
    (hok : out.result = .ok ()) (h' : Ends file ys out.ring.memory out')
    (happart : ∀ x ∈ xs, ∀ y ∈ ys, x.Apart y) : Ends file (xs ++ ys) m out' := by
  refine ⟨h'.idle, fun hok' q hq => ?_, fun a ha => ?_⟩
  · rcases mem_append.mp hq with hq | hq
    · intro k hk
      rw [h'.frame _ fun y hy => happart q hq y hy _ ⟨by omega, by omega⟩]
      exact h.filled hok q hq k hk
    · exact h'.filled hok' q hq
  · rw [h'.frame a fun q hq => ha q (mem_append_right _ hq),
      h.frame a fun q hq => ha q (mem_append_left _ hq)]

theorem readEach_ends {size : Nat} {out : Out} : ∀ {requests : List Request} {r : Ring}
    {answers : List Answer}, requests.Pairwise Request.Apart → r.Idle →
      readEach file size requests r answers = some out → Ends file requests r.memory out
  | [], r, answers, _, hidle, h => by
    cases h
    exact ⟨fun _ => hidle, fun _ q hq => (nomatch hq), fun _ _ => rfl⟩
  | q :: rest, r, answers, happart, hidle, h => by
    obtain ⟨hfirst, happart⟩ := List.pairwise_cons.mp happart
    obtain ⟨out₁, h₁, h⟩ := bind_eq_some_iff.mp h
    have hends := readExact_ends hidle h₁
    cases hresult : out₁.result with
    | error e =>
      rw [hresult] at h
      obtain rfl := some.inj h
      exact hends.append_left (by simp [hresult])
    | ok u =>
      rw [hresult] at h
      have hidle₁ := hends.idle fun e he => (nomatch hresult.symm.trans he)
      exact hends.append hresult (readEach_ends happart hidle₁ h) fun x hx y hy => by
        rw [List.mem_singleton.mp hx]
        exact hfirst y hy

theorem validate_ok {batch : List Request} : ∀ {seen : List Nat} {results : List Cqe},
    validate batch seen results = .ok () → ∀ c ∈ results, 0 < c.userData ∧
      batch[c.userData - 1]?.map (fun q => (q.length : Int)) = some c.res
  | _, [], _, c, hc => by cases hc
  | seen, c' :: rest, h, c, hc => by
    unfold validate at h
    split at h
    · cases h
    next hvalid =>
    split at h
    · cases h
    split at h
    · cases h
    next hlength =>
    rcases List.mem_cons.mp hc with rfl | hc
    · exact ⟨by omega, not_not.mp hlength⟩
    · exact validate_ok h c hc

theorem mem_entriesOf {batch : List Request} {s : Sqe} (h : s ∈ entriesOf batch) :
    ∃ q, batch[s.userData - 1]? = some q ∧ s.off = q.offset ∧ s.addr = q.destination ∧
      s.len = q.length := by
  obtain ⟨⟨q, i⟩, hq, rfl⟩ := mem_map.mp h
  exact ⟨q, by simpa using mem_zipIdx_iff_getElem?.mp hq, rfl, rfl, rfl⟩

theorem entriesOf_apart {batch : List Request} (h : batch.Pairwise Request.Apart) :
    (entriesOf batch).Pairwise Sqe.Apart := by
  rw [← zipIdx_map_fst 0 batch] at h
  have hfirst := pairwise_map.mp h
  exact pairwise_map.mpr hfirst

theorem await_served {count : Nat} (hown : own.Pairwise Sqe.Apart) : ∀ {answers : List Answer}
    {r : Ring} {finished : List (Sqe × Int)} {w}, Served file own m r finished →
      await file count answers r = some w →
      (∃ finished', Served file own m w.2.1 finished') ∧
        (w.1 = true → count ≤ w.2.1.posted.length)
  | answers, r, finished, w, hserved, h => by
    unfold await at h
    split at h
    next hall =>
      cases h
      exact ⟨⟨finished, hserved⟩, fun _ => hall⟩
    split at h
    · cases h
    next a rest =>
    obtain ⟨finished', hserved'⟩ := hserved.enter hown 0 a
    generalize enter file 0 a r = e at h hserved'
    obtain ⟨n, r'⟩ := e
    cases n with
    | none =>
      cases h
      exact ⟨⟨finished', hserved'⟩, fun hne => (nomatch hne)⟩
    | some n => exact await_served hown hserved' h

theorem readBatch_ends {batch : List Request} {answers : List Answer} {out : Out} (hidle : r.Idle)
    (happart : batch.Pairwise Request.Apart) (h : readBatch file batch r answers = some out) :
    Ends file batch r.memory out := by
  have hown := entriesOf_apart happart
  have hlength : (entriesOf batch).length = batch.length := by simp [entriesOf]
  have hframe : ∀ {r' : Ring} {finished}, Served file (entriesOf batch) r.memory r' finished →
      ∀ a, (∀ q ∈ batch, ¬ q.Holds a) → r'.memory a = r.memory a := by
    intro r' finished hserved a ha
    refine hserved.frame a fun s hs hin => ?_
    obtain ⟨q, hq, -, haddr, hlen⟩ := mem_entriesOf hs
    exact ha q (mem_of_getElem? hq) ⟨haddr ▸ hin.1, haddr ▸ hlen ▸ hin.2⟩
  cases answers with
  | nil => cases h
  | cons a answers =>
  obtain ⟨finished, hserved⟩ := (@served_start file r hidle (entriesOf batch)).enter hown
    batch.length a
  unfold readBatch at h
  dsimp only at h
  generalize enter file batch.length a _ = e at h hserved
  obtain ⟨n, r'⟩ := e
  cases n with
  | none =>
    cases h
    exact .stopped (fun hne => absurd (by simp [ReadError.Strands]) hne) (hframe hserved)
  | some n =>
    dsimp only at h
    split at h
    · cases h
      exact .stopped (fun hne => absurd (by simp [ReadError.Strands]) hne) (hframe hserved)
    obtain ⟨⟨arrived, r₁, rest⟩, hawait, h⟩ := bind_eq_some_iff.mp h
    obtain ⟨⟨finished₁, hserved₁⟩, hcount⟩ := await_served hown hserved hawait
    split at h
    · cases h
      exact .stopped (fun hne => absurd (by simp [ReadError.Strands]) hne) (hframe hserved₁)
    next harrived =>
    cases h
    obtain ⟨hflying, hqueued, hposted, hperm⟩ :=
      hserved₁.all_done (hlength.symm ▸ hcount (Bool.of_not_eq_false harrived))
    rw [hlength] at hposted
    have hframe₁ := hframe hserved₁
    refine ⟨fun _ => ⟨hqueued, hflying, by simp [hposted]⟩, fun hok q hq => ?_, hframe₁⟩
    dsimp only at hok ⊢
    rw [← hposted, take_length] at hok
    -- the entry of `q` is one of the finished reads, and its tag leads back to `q`
    obtain ⟨i, hi⟩ := mem_iff_getElem?.mp hq
    have hentry : (⟨q.offset, q.destination, q.length, i + 1⟩ : Sqe) ∈ entriesOf batch :=
      mem_map.mpr ⟨(q, i), mem_zipIdx_iff_getElem?.mpr hi, rfl⟩
    obtain ⟨f, hf, heq⟩ := mem_map.mp (hperm.symm.subset hentry)
    have hc : (⟨f.1.userData, f.2⟩ : Cqe) ∈ r₁.posted := by
      rw [hserved₁.posted]
      exact mem_map_of_mem hf
    have hres := (validate_ok hok _ hc).2
    have hfilled := hserved₁.filled f hf
    rw [heq] at hres hfilled
    simp only [Nat.add_sub_cancel, hi, map_some, some.injEq] at hres
    exact hfilled hres.symm

theorem readBatches_ends {entries : Nat} {out : Out} : ∀ {fuel : Nat} {requests : List Request}
    {r : Ring} {answers : List Answer}, requests.Pairwise Request.Apart → r.Idle →
      readBatches file entries fuel requests r answers = some out →
      Ends file requests r.memory out
  | _, [], r, answers, _, hidle, h => by
    unfold readBatches at h
    cases h
    exact ⟨fun _ => hidle, fun _ q hq => (nomatch hq), fun _ _ => rfl⟩
  | 0, _ :: _, _, _, _, _, h => by cases h
  | fuel + 1, q :: qs, r, answers, happart, hidle, h => by
    rw [← List.take_append_drop entries (q :: qs)] at happart ⊢
    obtain ⟨hfirst, hrest, hcross⟩ := List.pairwise_append.mp happart
    obtain ⟨out₁, h₁, h⟩ := bind_eq_some_iff.mp h
    have hends := readBatch_ends hidle hfirst h₁
    cases hresult : out₁.result with
    | error e =>
      rw [hresult] at h
      obtain rfl := some.inj h
      exact hends.append_left (by simp [hresult])
    | ok u =>
      rw [hresult] at h
      have hidle₁ := hends.idle fun e he => (nomatch hresult.symm.trans he)
      exact hends.append hresult (readBatches_ends hrest hidle₁ h) hcross

theorem call_ends {size entries : Nat} {c : Call} {answers : List Answer} {out : Out}
    (hidle : r.Idle) (happart : c.requests.Pairwise Request.Apart)
    (h : call file size entries c r answers = some out) : Ends file c.requests r.memory out := by
  cases c with
  | exact q => exact readExact_ends hidle h
  | many qs =>
    change readMany file size entries qs r answers = some out at h
    unfold readMany at h
    split at h
    · cases h
      exact .stopped (fun _ => hidle) fun _ _ => rfl
    split at h
    · exact readEach_ends happart hidle h
    · exact readBatches_ends happart hidle h

/-- **Until a call strands entries in the ring, a read that returns has read.** For all answers of
the kernel, a successful call behind calls that stranded nothing has filled its destinations and
leaves nothing of its own in the ring. -/
theorem successful_reads_are_filled (size entries : Nat) {r : Ring}
    {calls : List (Call × List Answer)} {before after : List (Call × Out)} {c : Call} {out : Out}
    (hidle : r.Idle) (happart : ∀ x ∈ calls, x.1.requests.Pairwise Request.Apart)
    (h : run file size entries r calls = some (before ++ (c, out) :: after))
    (hbefore : ∀ x ∈ before, ∀ e, x.2.result = .error e → ¬ e.Strands)
    (hok : out.result = .ok ()) :
    out.ring.Idle ∧ ∀ q ∈ c.requests,
      Covers file out.ring.memory q.offset q.destination q.length := by
  induction calls generalizing r before with
  | nil =>
    have h := some.inj h
    simp at h
  | cons first rest ih =>
    obtain ⟨c₁, answers⟩ := first
    obtain ⟨out₁, h₁, h⟩ := bind_eq_some_iff.mp h
    obtain ⟨later, hlater, h⟩ := bind_eq_some_iff.mp h
    have hends := call_ends hidle (happart _ mem_cons_self) h₁
    have h := some.inj h
    cases before with
    | nil =>
      obtain ⟨heq, -⟩ := cons.inj h
      obtain ⟨rfl, rfl⟩ := Prod.mk.inj heq
      exact ⟨hends.idle fun e he => (nomatch hok.symm.trans he), hends.filled hok⟩
    | cons x before =>
      obtain ⟨rfl, rfl⟩ := cons.inj h
      exact ih (hends.idle (hbefore _ mem_cons_self))
        (fun y hy => happart y (mem_cons_of_mem _ hy)) hlater
        fun y hy => hbefore y (mem_cons_of_mem _ hy)

def countingFile : Nat → UInt8 := UInt8.ofNat

def emptyRing : Ring := { memory := fun _ => 0 }

def twoReads : List Request := [⟨10, 200, 2⟩, ⟨20, 300, 1⟩]

/-- A batch that comes back before its completions, which then come in the other order. -/
def lateCalls : List (Call × List Answer) :=
  [(.many twoReads, [⟨some 2, []⟩, ⟨some 0, [(1, 1)]⟩, ⟨some 0, [(0, 2)]⟩])]

theorem late_completions_are_waited_for :
    ∃ out, run countingFile 100 64 emptyRing lateCalls = some ([] ++ (.many twoReads, out) :: []) ∧
      Covers countingFile out.ring.memory 10 200 2 := by
  have happart : twoReads.Pairwise Request.Apart := by
    refine .cons (fun q hq => ?_) (pairwise_singleton _ _)
    rw [mem_singleton.mp hq]
    rintro a ⟨-, hlt⟩ ⟨hle, -⟩
    exact absurd (Nat.lt_of_le_of_lt hle hlt) (by decide)
  refine ⟨_, rfl, ?_⟩
  exact (@successful_reads_are_filled countingFile 100 64 emptyRing lateCalls [] []
    (.many twoReads) _ ⟨rfl, rfl, rfl⟩ (fun x hx => mem_singleton.mp hx ▸ happart) rfl
    (fun _ hx => (nomatch hx)) rfl).2 ⟨10, 200, 2⟩ mem_cons_self

/-- After a failed `io_uring_enter` the next read takes the completion of the one before, and its
own destination is not filled. -/
theorem stale_submission_is_accepted :
    ∃ out₁ out₂, run countingFile 100 64 emptyRing
        [(.exact ⟨10, 200, 1⟩, [⟨none, []⟩]), (.exact ⟨20, 300, 1⟩, [⟨some 1, [(0, 1)]⟩])] =
        some [(.exact ⟨10, 200, 1⟩, out₁), (.exact ⟨20, 300, 1⟩, out₂)] ∧
      out₁.result = .error .submitFailed ∧ out₂.result = .ok () ∧
      out₂.ring.memory 300 = 0 ∧ countingFile 20 ≠ 0 ∧ out₂.ring.queued ≠ [] :=
  ⟨_, _, rfl, rfl, rfl, rfl, by decide, by decide⟩

end ExpertStreaming.FileRing
