import ExpertStreaming.KvCache.Shows

/-! # The cache and the history agree

A Qwen context keeps the tokens of its sequences twice: in cells that sequences share, and in a
history with a map for each sequence. Both show one timeline as long as calls succeed, if every
copy is exact and no open range meets the largest position.
-/
namespace ExpertStreaming.KvCache
open Lib Option

def Call.withSide (side : Option String) : Call → Call
  | .decode batch _ => .decode batch side
  | .seqCp src dst p0 p1 _ => .seqCp src dst p0 p1 side
  | .seqAdd seq p0 p1 delta _ => .seqAdd seq p0 p1 delta side
  | .seqDiv seq p0 p1 d _ => .seqDiv seq p0 p1 d side
  | a => a

namespace Qwen

variable {env : Env} {q q' : Qwen} {reply : Reply}

/-! ## The cache of a context -/

variable {batch : List BatchToken} {refused : Option String}

theorem decode_cases (h : q.decode env batch refused = some (q', reply)) :
    ∃ slot slotReply, q.cache.decodeSlot env batch = some (slot, slotReply) ∧
      ((q'.cache = slot ∧ q'.history = q.history ∧
          (slotReply = reply ∧ reply ≠ .done ∨ slotReply = .done ∧
            ((∃ message, reply = .threw message) ∨
              ∃ code, reply = .returned code ∧ env.compute slot batch = .error code))) ∨
        (slotReply = .done ∧ reply = .done ∧ acceptBatch q.history batch = .ok q'.history ∧
          ∃ w, env.compute slot batch = .ok w ∧ q'.cache = slot.computed batch.length w)) := by
  unfold decode at h
  obtain ⟨⟨slot, slotReply⟩, hslot, h⟩ := bind_eq_some_iff.mp h
  refine ⟨slot, slotReply, hslot, ?_⟩
  dsimp only at h
  split at h
  next hdone =>
    split at h
    · cases h
      exact .inl ⟨rfl, rfl, .inr ⟨hdone, .inl ⟨_, rfl⟩⟩⟩
    split at h
    · cases h
      exact .inl ⟨rfl, rfl, .inr ⟨hdone, .inl ⟨_, rfl⟩⟩⟩
    split at h
    · cases h
      exact .inl ⟨rfl, rfl, .inr ⟨hdone, .inl ⟨_, rfl⟩⟩⟩
    next history haccept =>
    split at h
    next code hcode =>
      cases h
      exact .inl ⟨rfl, rfl, .inr ⟨hdone, .inr ⟨code, rfl, hcode⟩⟩⟩
    next w hw =>
    obtain ⟨logitPos, -, heq⟩ := map_eq_some_iff.mp h
    cases heq
    exact .inr ⟨hdone, rfl, haccept, w, hw, rfl⟩
  next hnot =>
    cases h
    exact .inl ⟨rfl, rfl, .inl ⟨rfl, hnot⟩⟩

theorem decode_cache (h : q.decode env batch refused = some (q', reply)) :
    ∃ side, q.cache.decode env batch side = some (q'.cache, reply) := by
  obtain ⟨slot, slotReply, hslot, hcase⟩ := decode_cases h
  unfold Cache.decode
  rw [hslot]
  rcases hcase with ⟨hcache, -, ⟨rfl, hnot⟩ | ⟨rfl, ⟨message, rfl⟩ | ⟨code, rfl, hcode⟩⟩⟩ |
    ⟨rfl, rfl, -, w, hw, hcache⟩
  · exact ⟨none, by rw [map_some, if_neg hnot, hcache]⟩
  · exact ⟨some message, by rw [map_some, if_pos rfl, hcache]⟩
  · exact ⟨none, by rw [map_some, if_pos rfl, hcache, hcode]⟩
  · exact ⟨none, by rw [map_some, if_pos rfl, hcache, hw]⟩

theorem seqCp_cases {src dst p0 p1} (h : q.seqCp env src dst p0 p1 refused = some (q', reply)) :
    q' = q ∨ (reply = .done ∧ (src ≠ dst ∧ ¬ (q.cache.copiedOrders src p0 p1).isEmpty = true) ∧
      q.history.copy src dst p0 p1 = .ok q'.history ∧
      (q.cache.replaceOrders src dst p0 p1).seqCp src dst p0 p1 = some q'.cache) := by
  unfold seqCp at h
  split at h
  · cases h
    exact .inl rfl
  next hne =>
  split at h
  · cases h
    exact .inl rfl
  split at h
  · cases h
    exact .inl rfl
  next history hprepared =>
  split at h
  · cases h
    exact .inl rfl
  next hsome =>
  obtain ⟨c, hc, heq⟩ := map_eq_some_iff.mp h
  cases heq
  refine .inr ⟨rfl, ⟨hne, hsome⟩, ?_, hc⟩
  unfold prepare at hprepared
  split at hprepared
  · cases hprepared
  · exact hprepared

theorem seqCp_cache {src dst p0 p1} (ho : q.cache.ordered = true)
    (h : q.seqCp env src dst p0 p1 refused = some (q', reply)) :
    ∃ side, q.cache.copySequence env src dst p0 p1 side = some (q'.cache, reply) := by
  unfold seqCp at h
  unfold Cache.copySequence
  rw [ho, Bool.true_and, Bool.true_and]
  split at h
  next heq =>
    cases h
    exact ⟨none, by rw [if_pos heq]⟩
  next hne =>
  simp only [if_neg hne]
  split at h
  next hinvalid =>
    cases h
    exact ⟨none, by rw [if_pos hinvalid]⟩
  next hvalid =>
  simp only [if_neg hvalid]
  split at h
  next message _ =>
    cases h
    exact ⟨some message, rfl⟩
  next history _ =>
  refine ⟨none, ?_⟩
  dsimp only
  split at h
  next hempty =>
    cases h
    rw [if_pos hempty]
  next hsome =>
  rw [if_neg hsome]
  rw [map_eq_some_iff] at h ⊢
  obtain ⟨c, hc, heq⟩ := h
  cases heq
  exact ⟨c, hc, rfl⟩

theorem moveHistory_cases {h h' r first last delta divisor}
    (hok : moveHistory h r first last delta divisor = .ok h') :
    (divisor = 1 ∧ h.add r first last delta = .ok h') ∨
      (divisor ≠ 1 ∧ h.divide r first last divisor = .ok h') := by
  unfold moveHistory at hok
  by_cases hone : divisor = 1
  · rw [if_pos hone] at hok
    split at hok
    · cases hok
    next moved hmoved =>
    split at hok
    · cases hok
    · cases hok
      exact .inl ⟨hone, hmoved⟩
  · rw [if_neg hone] at hok
    split at hok
    · cases hok
    next moved hmoved =>
    split at hok
    · cases hok
    · cases hok
      exact .inr ⟨hone, hmoved⟩

theorem moveSides_history {t history logitPos}
    (hok : q.moveSides t refused = .ok (history, logitPos)) :
    moveHistory q.history t.seq t.first t.last t.delta t.divisor = .ok history := by
  unfold moveSides prepare at hok
  split at hok
  · cases hok
  next moved hmoved =>
  split at hok
  · cases hok
  · cases hok
    split at hmoved
    · cases hmoved
    · exact hmoved

theorem transformPositions_cache (seq p0 p1 delta divisor : Int) (refused : Option String)
    (h : q.transformPositions env seq p0 p1 delta divisor refused = (q', reply)) :
    ∃ side, q.cache.transformPositions env seq p0 p1 delta divisor side = (q'.cache, reply) := by
  unfold transformPositions at h
  dsimp only at h
  split at h
  next hdivisor =>
    cases h
    refine ⟨none, ?_⟩
    unfold Cache.transformPositions
    rw [if_pos hdivisor]
  next hdivisor =>
  split at h
  next hnothing =>
    cases h
    refine ⟨none, ?_⟩
    unfold Cache.transformPositions
    rw [if_neg hdivisor]
    exact if_pos hnothing
  split at h
  next message _ =>
    cases h
    exact ⟨some message, rfl⟩
  next history logitPos _ =>
  refine ⟨none, ?_⟩
  split at h
  next c hc =>
    cases h
    exact hc
  next c reply' _ hc =>
    cases h
    exact hc

/-- **The cache of a context goes through the calls on a cache.** -/
theorem call_cache {a} (ho : q.cache.ordered = true) (h : q.call env a = some (q', reply)) :
    ∃ side, KvCache.call env q.cache (a.withSide side) = some (q'.cache, reply) := by
  cases a with
  | decode batch refused => exact decode_cache h
  | seqRm seq p0 p1 =>
    have h : q.seqRm seq p0 p1 = (q', reply) := some.inj h
    refine ⟨none, ?_⟩
    show some (_, if _ then _ else _) = some _
    unfold seqRm at h
    dsimp only at h
    split at h
    next hremoved =>
      cases h
      rw [if_pos hremoved]
    next hkept =>
      cases h
      rw [if_neg hkept]
  | seqCp src dst p0 p1 refused => exact seqCp_cache ho h
  | seqKeep seq =>
    obtain ⟨rfl, rfl⟩ := Prod.mk.inj (some.inj h)
    exact ⟨none, rfl⟩
  | seqAdd seq p0 p1 delta refused =>
    have h := some.inj h
    show ∃ side, Cache.addPositions env q.cache seq p0 p1 delta side = _
    unfold Cache.addPositions
    rw [ho]
    split at h
    next hzero =>
      cases h
      exact ⟨none, by rw [if_pos hzero]⟩
    next hdelta =>
      obtain ⟨side, hside⟩ := transformPositions_cache seq p0 p1 delta 1 refused h
      exact ⟨side, by rw [if_neg hdelta, if_pos rfl, hside]⟩
  | seqDiv seq p0 p1 d refused =>
    have h := some.inj h
    show ∃ side, Cache.dividePositions env q.cache seq p0 p1 d side = _
    unfold Cache.dividePositions
    rw [ho]
    split at h
    next hone =>
      cases h
      exact ⟨none, by rw [if_pos hone]⟩
    next hd =>
      obtain ⟨side, hside⟩ := transformPositions_cache seq p0 p1 0 d refused h
      exact ⟨side, by rw [if_neg hd, if_pos rfl, hside]⟩
  | clear =>
    obtain ⟨rfl, rfl⟩ := Prod.mk.inj (some.inj h)
    exact ⟨none, rfl⟩
  | defrag =>
    obtain ⟨rfl, rfl⟩ := Prod.mk.inj (some.inj h)
    exact ⟨none, rfl⟩
  | update =>
    refine ⟨none, ?_⟩
    unfold call at h
    show (q.cache.update env.graphs).map _ = _
    rw [map_eq_some_iff] at h ⊢
    obtain ⟨r, hr, heq⟩ := h
    cases heq
    exact ⟨r, hr, rfl⟩

/-! ## Both sides of a call -/

def mayThrow : Call → Bool
  | .seqCp .. | .seqAdd .. | .seqDiv .. => true
  | _ => false

/-- A call that succeeds, or throws and changes nothing. -/
def Successful (label : Call × Reply) : Prop :=
  label.2 = .done ∨ (mayThrow label.1 = true ∧ ∃ message, label.2 = .threw message)

instance (label : Call × Reply) : Decidable (Successful label) :=
  match label with
  | (_, .done) => .isTrue (.inl rfl)
  | (a, .threw message) => decidable_of_iff (mayThrow a = true)
      ⟨fun h => .inr ⟨h, message, rfl⟩, fun h => (h.resolve_left nofun).1⟩
  | (_, .returned _) => .isFalse fun h => by
      rcases h with h | ⟨-, message, h⟩ <;> cases h

/-- **When a call means the same to the cells and to the history.** -/
def Exact (q : Qwen) (label : Call × Reply) : Prop :=
  match label.1 with
  | .seqCp src dst p0 p1 _ => label.2 = .done → q.cache.Copyable src dst p0 p1
  | .seqRm seq p0 p1 => p1 < 0 → ∀ cell ∈ q.cache.cells,
      (seq < 0 ∨ seq ∈ cell.seqId) → max 0 p0 ≤ cell.pos → cell.pos < posMax
  | _ => True

instance (q : Qwen) (label : Call × Reply) : Decidable (q.Exact label) :=
  match label with
  | (.seqCp src dst p0 p1 _, reply) =>
    inferInstanceAs (Decidable (reply = .done → q.cache.Copyable src dst p0 p1))
  | (.seqRm seq p0 p1, _) => inferInstanceAs (Decidable (p1 < 0 → ∀ cell ∈ q.cache.cells,
      (seq < 0 ∨ seq ∈ cell.seqId) → max 0 p0 ≤ cell.pos → cell.pos < posMax))
  | (.decode .., _) | (.seqKeep .., _) | (.seqAdd .., _) | (.seqDiv .., _) | (.clear, _)
  | (.defrag, _) | (.update, _) => .isTrue trivial

/-- **The cells and the history show the same timeline.** -/
structure Synchronised (q : Qwen) : Prop where
  sound : q.cache.Sound
  ordered : q.cache.ordered = true
  shows : Shows q.cache.cells q.history.timeline

theorem Fresh.synchronised (h : q.Fresh) : Synchronised q := by
  refine ⟨h.cache.sound h.plain, h.ordered, ⟨?_⟩⟩
  intro seq order pos
  rw [h.history]
  refine ⟨?_, nofun⟩
  rintro ⟨cell, hmem, hpos, -⟩
  obtain ⟨i, hi⟩ := List.mem_iff_getElem?.mp hmem
  rw [h.cache.cell_eq hi] at hpos
  exact absurd hpos (show ¬ (0 : Int) ≤ -1 by decide)

theorem acceptBatch_appends {h h'} (hok : acceptBatch h batch = .ok h')
    (hordered : ∀ {seq order pos : Int}, h.timeline seq order = some pos → 0 ≤ order) :
    (∀ token ∈ batch, 0 ≤ token.pos) ∧ h.timeline.Appends batch h'.timeline := by
  induction batch generalizing h with
  | nil =>
    cases hok
    exact ⟨fun _ hmem => (nomatch hmem), .nil _⟩
  | cons token rest ih =>
    unfold acceptBatch at hok
    split at hok
    · cases hok
    next hone =>
    split at hok
    · cases hok
    next next haccept =>
    obtain ⟨seq, hseqs⟩ := List.length_eq_one_iff.mp (not_not.mp hone)
    rw [hseqs] at haccept
    obtain ⟨hpos, last, hlast, hput⟩ := History.timeline_accept haccept hordered
    have hnext := hlast.next_nonneg hpos
    obtain ⟨hrest, happends⟩ := ih hok fun {q order pos} hold => by
      rw [hput] at hold
      unfold Timeline.put at hold
      split at hold
      next heq => exact heq.2 ▸ hnext
      · exact hordered hold
    refine ⟨fun t hmem => ?_, .cons hseqs hlast hlast.lt_next (hput ▸ happends)⟩
    rcases List.mem_cons.mp hmem with rfl | hmem
    · exact hpos
    · exact hrest t hmem

namespace Synchronised

theorem order_nonneg (h : Synchronised q) {seq order pos}
    (hpos : q.history.timeline seq order = some pos) : 0 ≤ order :=
  h.shows.order_nonneg (h.sound.chronological h.ordered) hpos

variable {refused : Option String}

/-- **Decoding appends the same tokens to both.** -/
theorem decode {batch : List BatchToken} (h : Synchronised q)
    (hstep : q.decode env batch refused = some (q', .done)) :
    (∀ token ∈ batch, 0 ≤ token.pos) ∧ Shows q'.cache.cells q'.history.timeline ∧
      q.history.timeline.Appends batch q'.history.timeline := by
  obtain ⟨slot, slotReply, hslot, hcase⟩ := decode_cases hstep
  rcases hcase with ⟨-, -, ⟨-, hnot⟩ | ⟨-, ⟨message, hthrew⟩ | ⟨code, hcode, -⟩⟩⟩ |
    ⟨rfl, -, haccept, w, -, hcache⟩
  · exact absurd rfl hnot
  · cases hthrew
  · cases hcode
  · obtain ⟨hpos, happends⟩ := acceptBatch_appends haccept h.order_nonneg
    obtain ⟨tl, hcells, hshows⟩ := Cache.shows_decodeSlot h.sound h.ordered h.shows hpos hslot
    obtain rfl := hcells.unique happends
    refine ⟨hpos, ?_, happends⟩
    rw [hcache]
    exact hshows

theorem seqRm {seq p0 p1} (h : Synchronised q) (hexact : q.Exact (.seqRm seq p0 p1, reply))
    (hstep : q.seqRm seq p0 p1 = (q', .done)) :
    Shows q'.cache.cells q'.history.timeline := by
  have hshows := Cache.shows_seqRm h.shows h.sound.plain seq p0 p1
  unfold Qwen.seqRm at hstep
  dsimp only at hstep
  split at hstep
  · cases hstep
    dsimp only
    rw [History.timeline_remove]
    rw [Timeline.rewrite_congr] at hshows
    · exact hshows
    · intro q₁ order pos hpos
      refine if_congr (and_congr_right fun hconcerns => ?_) rfl rfl
      obtain ⟨cell, hmem, -, hseq, -, rfl⟩ := h.shows.has_iff.mpr hpos
      have hbound : p1 < 0 → max 0 p0 ≤ cell.pos → cell.pos < posMax := fun hneg => by
        refine hexact hneg cell hmem ?_
        rcases hconcerns with hall | rfl
        · exact .inl hall
        · exact .inr hseq
      unfold InRange History.Within lowest highest History.high
      unfold posMax at hbound ⊢
      unfold orderMax
      split <;> split <;> omega
  · cases hstep

theorem seqCp {src dst p0 p1} (h : Synchronised q) (hcopy : q.cache.Copyable src dst p0 p1)
    (hstep : q.seqCp env src dst p0 p1 refused = some (q', .done)) :
    Shows q'.cache.cells q'.history.timeline := by
  rcases seqCp_cases hstep with rfl | ⟨-, -, hhistory, hcells⟩
  · exact h.shows
  · have hshows := (Cache.copiesExactly h.sound.plain (fun _ => h.sound) hcopy hcells).shows h.shows
    have hsame : q.history.timeline.copy src dst (Cache.Copied p0 p1) =
        q.history.timeline.copy src dst (History.Within p0 p1) := by
      refine Timeline.copy_congr fun {order pos} hpos => ?_
      obtain ⟨cell, hmem, -, hseq, -, rfl⟩ := h.shows.has_iff.mpr hpos
      have hbound := fun hneg => hcopy.bounded hneg cell hmem hseq
      unfold Cache.Copied History.Within lowest History.high
      unfold posMax at hbound
      unfold orderMax
      split <;> split <;> omega
    rw [History.timeline_copy hhistory, ← hsame]
    exact hshows

theorem timeline_moveHistory {h h' : History} {t : Cache.Transform}
    (hmove : moveHistory h t.seq t.first t.last t.delta t.divisor = .ok h')
    (hfirst : 0 ≤ t.first) (hlast : 0 ≤ t.last)
    (hnonneg : ∀ {seq order pos : Int}, h.timeline seq order = some pos → 0 ≤ pos) :
    h'.timeline = h.timeline.rewrite fun q pos =>
      if History.Concerns t.seq q then t.position pos else some pos := by
  have hwithin : ∀ pos, History.Within t.first t.last pos ↔ t.first ≤ pos ∧ pos < t.last := by
    intro pos
    unfold History.Within lowest History.high
    rw [if_neg (Int.not_lt.mpr hfirst), if_neg (Int.not_lt.mpr hlast)]
  rcases moveHistory_cases hmove with ⟨hone, hmoved⟩ | ⟨hdivisor, hmoved⟩
  · rw [History.timeline_add hmoved hnonneg]
    refine Timeline.rewrite_congr fun {q order pos} hpos => ?_
    have hnext : t.next pos = pos + t.delta := if_pos hone
    unfold Cache.Transform.position
    by_cases hq : History.Concerns t.seq q
    · simp only [hwithin, hnext, hq, true_and, if_true]
    · simp only [hq, false_and, if_false]
  · rw [History.timeline_divide hmoved]
    refine Timeline.rewrite_congr fun {q order pos} hpos => ?_
    have hnext : t.next pos = pos.tdiv t.divisor := if_neg hdivisor
    have hpositive : 0 ≤ t.divisor := by
      unfold History.divide at hmoved
      split at hmoved
      · cases hmoved
      · omega
    have hkept : 0 ≤ pos.tdiv t.divisor := Int.tdiv_nonneg (hnonneg hpos) hpositive
    unfold Cache.Transform.position
    by_cases hq : History.Concerns t.seq q
    · simp only [hwithin, hnext, hq, true_and, if_true, if_neg (Int.not_lt.mpr hkept)]
    · simp only [hq, false_and, if_false]

theorem transformPositions {seq p0 p1 delta divisor : Int} (h : Synchronised q)
    (hstep : q.transformPositions env seq p0 p1 delta divisor refused = (q', reply)) :
    Shows q'.cache.cells q'.history.timeline := by
  rcases transformPositions_outcome env q seq p0 p1 delta divisor refused with
    ⟨message, heq⟩ | ⟨heq, -⟩ | ⟨plan, history, logitPos, hplan, hsides, heq⟩
  · obtain ⟨rfl, -⟩ := Prod.mk.inj (hstep.symm.trans heq)
    exact h.shows
  · obtain ⟨rfl, -⟩ := Prod.mk.inj (hstep.symm.trans heq)
    exact h.shows
  · obtain ⟨rfl, -⟩ := Prod.mk.inj (hstep.symm.trans heq)
    have hfirst : (0 : Int) ≤ max 0 p0 := le_max_left _ _
    have hlast : 0 ≤ highest p1 := by
      unfold highest posMax
      split <;> omega
    have hsound := (Cache.preserves_applyPlan env hfirst hplan).sound h.sound
    have hshows := (Cache.Changed.applyPlan hfirst hplan).shows
      (h.sound.chronological h.ordered) (hsound.chronological h.ordered) h.shows
    have hhistory : moveHistory q.history seq (max 0 p0) (highest p1) delta divisor =
        .ok history := moveSides_history hsides
    dsimp only
    rw [timeline_moveHistory (t := ⟨seq, max 0 p0, highest p1, delta, divisor⟩) hhistory hfirst
      hlast h.shows.nonneg]
    exact hshows

theorem of_shows {label} (h : Synchronised q) (hstep : Step env q label q')
    (hok : ∀ side, q.cache.Admissible (label.1.withSide side))
    (hshows : Shows q'.cache.cells q'.history.timeline) : Synchronised q' := by
  obtain ⟨side, hside⟩ := call_cache h.ordered hstep
  have hcall : KvCache.Step env q.cache (label.1.withSide side, label.2) q'.cache := hside
  exact ⟨h.sound.step hcall (hok side), (sameKind_call h.sound.plain hside).ordered.trans h.ordered,
    hshows⟩

/-- **A call that succeeds, or throws, keeps both sides together.** -/
theorem step {label} (h : Synchronised q) (hstep : Step env q label q') (hok : Successful label)
    (hexact : q.Exact label) : Synchronised q' := by
  obtain ⟨a, reply⟩ := label
  have hdone : mayThrow a = false → reply = .done := by
    intro hnever
    rcases hok with hdone | ⟨hmay, -⟩
    · exact hdone
    · rw [hnever] at hmay
      cases hmay
  cases a with
  | decode batch refused =>
    obtain rfl := hdone rfl
    obtain ⟨hpos, hshows, -⟩ := h.decode hstep
    refine h.of_shows hstep (fun _ => ⟨fun token hmem => ⟨hpos token hmem, fun hnot => ?_⟩, nofun⟩)
      hshows
    rw [h.ordered] at hnot
    cases hnot
  | seqRm seq p0 p1 =>
    obtain rfl := hdone rfl
    exact h.of_shows hstep (fun _ => ⟨trivial, nofun⟩) (h.seqRm hexact (some.inj hstep))
  | seqCp src dst p0 p1 refused =>
    by_cases hreply : reply = .done
    · subst hreply
      refine h.of_shows hstep (fun _ => ⟨trivial, ?_⟩) (h.seqCp (hexact rfl) hstep)
      intro src' dst' p0' p1' side' heq _
      cases heq
      exact hexact rfl
    · rcases seqCp_cases hstep with rfl | ⟨hdone', -⟩
      · exact h
      · exact absurd hdone' hreply
  | seqKeep seq =>
    obtain rfl := hdone rfl
    refine h.of_shows hstep (fun _ => ⟨trivial, nofun⟩) ?_
    obtain ⟨rfl, -⟩ := Prod.mk.inj (some.inj hstep)
    show Shows _ (q.history.keep seq).timeline
    rw [History.timeline_keep]
    exact Cache.shows_seqKeep h.shows seq
  | seqAdd seq p0 p1 delta refused =>
    refine h.of_shows hstep (fun _ => ⟨trivial, nofun⟩) ?_
    have hcall := some.inj hstep
    split at hcall
    · cases hcall
      exact h.shows
    · exact h.transformPositions hcall
  | seqDiv seq p0 p1 d refused =>
    refine h.of_shows hstep (fun _ => ⟨fun hnot => ?_, nofun⟩) ?_
    · rw [h.ordered] at hnot
      cases hnot
    · have hcall := some.inj hstep
      split at hcall
      · cases hcall
        exact h.shows
      · exact h.transformPositions hcall
  | clear =>
    refine h.of_shows hstep (fun _ => ⟨trivial, nofun⟩) ?_
    obtain ⟨rfl, -⟩ := Prod.mk.inj (some.inj hstep)
    exact Cache.shows_clear q.cache
  | defrag =>
    refine h.of_shows hstep (fun _ => ⟨trivial, nofun⟩) ?_
    obtain ⟨rfl, -⟩ := Prod.mk.inj (some.inj hstep)
    show Shows q.cache.defrag.cells _
    unfold Cache.defrag
    split <;> exact h.shows
  | update =>
    refine h.of_shows hstep (fun _ => ⟨trivial, nofun⟩) ?_
    unfold Step call at hstep
    obtain ⟨⟨settled, status⟩, hsettled, heq⟩ := map_eq_some_iff.mp hstep
    cases heq
    exact Cache.shows_update h.shows hsettled

end Synchronised

/-! ## Attention -/

theorem attendedRows_nodup {c} (h : c.Sound) (ho : c.ordered = true) (seq : Int) :
    ((attendedRows c seq).map fun row => (c.cell row).chronology).Nodup := by
  refine List.Nodup.map_on ?_ (List.nodup_range.filter _)
  have hholds : ∀ {row}, row ∈ attendedRows c seq →
      c.Holds seq ⟨(c.cell row).chronology, (c.cell row).pos, row⟩ := by
    intro row hmem
    obtain ⟨-, hrow⟩ := List.mem_filter.mp hmem
    rw [decide_eq_true_iff] at hrow
    have hlt : row < c.cells.length := by
      by_contra hge
      have hempty : (c.cell row).pos = -1 := by
        unfold Cache.cell
        rw [List.getD_eq_default _ _ (Nat.le_of_not_lt hge)]
      rw [hempty] at hrow
      exact absurd hrow.1 (by decide)
    refine ⟨c.cell row, ?_, hrow.1, hrow.2, rfl, rfl⟩
    unfold Cache.cell
    rw [List.getD_eq_getElem _ _ hlt, List.getElem?_eq_getElem hlt]
  intro row hrow row' hrow' heq
  exact congrArg Token.row (h.holds_unique ho (hholds hrow) (hholds hrow') heq)

theorem layoutError_none {c} (h : c.Sound) (ho : c.ordered = true)
    (hone : ∀ token ∈ batch, token.seqs.length = 1) :
    layoutError c batch = none := by
  unfold layoutError
  rw [if_neg, if_neg]
  · simp only [List.any_eq_true, decide_eq_true_eq, not_exists, not_and, not_not]
    exact fun token _ => attendedRows_nodup h ho _
  · simpa using hone

/-! ## Runs -/

/-- **The cells and the history agree in every run** of calls that succeed, or throw and change
nothing, if every copy is exact. -/
theorem cells_and_history_agree {q₀ : Qwen} {evs : List (Event Qwen (Call × Reply))}
    (hfresh : q₀.Fresh) (hrun : Trace (Step env) q₀ evs q)
    (hok : ∀ ev ∈ evs, Successful ev.label ∧ ev.before.Exact ev.label) :
    (∀ seq order pos, (∃ row, q.cache.Holds seq ⟨order, pos, row⟩) ↔
      q.history.timeline seq order = some pos) ∧
    (∀ seq t t', q.cache.Holds seq t → q.cache.Holds seq t' → t.order = t'.order → t = t') ∧
    (∀ batch slot, (∀ token ∈ batch, 0 ≤ token.pos) →
      q.cache.decodeSlot env batch = some (slot, .done) → layoutError slot batch = none) ∧
    (∀ ev ∈ evs, ∀ batch refused, ev.label = (.decode batch refused, .done) →
      ev.before.history.timeline.Appends batch ev.after.history.timeline) := by
  obtain ⟨hsync, hevents⟩ := hrun.invariant_of (I := Synchronised)
    (C := fun ev => Successful ev.label ∧ ev.before.Exact ev.label)
    (fun _ _ _ h hstep hok => h.step hstep hok.1 hok.2) hok hfresh.synchronised
  refine ⟨Cache.shows_iff.mp hsync.shows, ?_, ?_, ?_⟩
  · intro seq t t' ht ht' heq
    exact hsync.sound.holds_unique hsync.ordered ht ht' heq
  · intro batch slot hpos hslot
    have hvalid : Cache.ValidBatch q.cache.ordered batch := fun token hmem =>
      ⟨hpos token hmem, fun hnot => by rw [hsync.ordered] at hnot; cases hnot⟩
    have hsound := (Cache.preserves_decodeSlot hsync.sound.plain hvalid hslot).sound hsync.sound
    obtain ⟨settled, status, head, hsettled, -, -, hsingle, -⟩ :=
      Cache.decodeSlot_placed hsync.sound.plain hslot
    have hordered := (Cache.framed_decodeSlot hsync.sound.plain hslot).ordered.trans hsync.ordered
    exact layoutError_none hsound hordered
      (hsingle ((Cache.framed_update hsettled).ordered.trans hsync.ordered))
  · rintro ⟨before, label, after⟩ hmem batch refused rfl
    obtain ⟨hbefore, -, hstep⟩ := hevents _ hmem
    exact (hbefore.decode hstep).2.2

open Cache (threeSequences text)

theorem eightKeys_fresh : eightKeys.Fresh where
  cache := ⟨by decide +kernel, rfl, rfl, rfl, rfl, rfl, by decide⟩
  plain := rfl
  ordered := rfl
  history := rfl

/-- Sequence 1 is a copy of sequence 0 that is moved, cut and continued. -/
theorem cells_and_history_agree_on_a_branch :
    ∃ evs q, Trace (Step threeSequences) eightKeys evs q ∧
      q.history.timeline 1 1 = some 4 ∧ q.history.timeline 1 2 = some 9 ∧
      ∀ seq order pos, (∃ row, q.cache.Holds seq ⟨order, pos, row⟩) ↔
        q.history.timeline seq order = some pos := by
  have hruns : (execute (call threeSequences) eightKeys
      [.decode [text 0 0, text 1 0] none, .seqCp 0 1 0 (-1) none, .update,
        .seqAdd 1 1 (-1) 3 none, .seqRm 0 0 1, .decode [text 9 1] none]).any (fun r =>
        r.1.all (fun ev => decide (Successful ev.label) && decide (ev.before.Exact ev.label)) &&
        decide (r.2.history.timeline 1 1 = some 4) &&
        decide (r.2.history.timeline 1 2 = some 9)) = true := by decide +kernel
  obtain ⟨⟨evs, q⟩, hrun, hok⟩ := (any_eq_true _ _).mp hruns
  simp only [Bool.and_eq_true, decide_eq_true_eq, List.all_eq_true] at hok
  obtain ⟨⟨hvalid, hmoved⟩, hlast⟩ := hok
  exact ⟨evs, q, execute_trace hrun, hmoved, hlast,
    (cells_and_history_agree eightKeys_fresh (execute_trace hrun) hvalid).1⟩

/-- Copied on before an update, the history passes on both tokens and the cells only one. -/
theorem chained_copy_parts_cells_and_history :
    ∃ evs q, Trace (Step threeSequences) eightKeys evs q ∧ (∀ ev ∈ evs, ev.label.2 = .done) ∧
      q.history.timeline 2 5 = some 5 ∧ ∀ row, ¬ q.cache.Holds 2 ⟨5, 5, row⟩ := by
  have hruns : (execute (call threeSequences) eightKeys
      [.decode [text 0 0] none, .decode [text 5 1] none, .seqCp 0 1 0 (-1) none,
        .seqCp 1 2 0 (-1) none]).any (fun r =>
        r.1.all (fun ev => decide (ev.label.2 = .done)) &&
        decide (r.2.history.timeline 2 5 = some 5) &&
        decide (∀ cell ∈ r.2.cache.cells, ¬ cell.Has 2 5 5)) = true := by decide +kernel
  obtain ⟨⟨evs, q⟩, hrun, hok⟩ := (any_eq_true _ _).mp hruns
  simp only [Bool.and_eq_true, decide_eq_true_eq, List.all_eq_true] at hok
  obtain ⟨⟨hdone, hhistory⟩, hcells⟩ := hok
  refine ⟨evs, q, execute_trace hrun, hdone, hhistory, fun row hholds => ?_⟩
  obtain ⟨cell, hmem, hhas⟩ := Cache.holds_iff_has.mp ⟨row, hholds⟩
  exact hcells cell hmem hhas

end Qwen

end ExpertStreaming.KvCache
