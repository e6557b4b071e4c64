import ExpertStreaming.KvCache.History
import ExpertStreaming.KvCache.Slot

/-! # Timelines

What a cache and a token history have in common is a map from the orders of each sequence to
positions. The operations of both are a few operations on such maps: positions are rewritten,
the tokens of one sequence are given to another, and tokens are put behind the last one. This
module has the operations and shows them for the history.
-/
namespace ExpertStreaming.KvCache
open Lib OrdMap Option

/-- The positions of the tokens of each sequence, by order. -/
abbrev Timeline := Int → Int → Option Int

namespace Timeline

variable {tl tl' : Timeline}

def rewrite (tl : Timeline) (f : Int → Int → Option Int) : Timeline :=
  fun seq order => (tl seq order).bind (f seq)

/-- One sequence gets the tokens another has at some positions. -/
def copy (tl : Timeline) (src dst : Int) (p : Int → Prop) [DecidablePred p] : Timeline :=
  fun seq order =>
    if seq = dst then ((tl src order).filter fun pos => decide (p pos)).or (tl dst order)
    else tl seq order

def put (tl : Timeline) (seq order pos : Int) : Timeline :=
  fun q o => if q = seq ∧ o = order then some pos else tl q o

/-- The last order of a sequence, `-1` for one without tokens. -/
def Latest (tl : Timeline) (seq last : Int) : Prop :=
  (last = -1 ∧ ∀ order, tl seq order = none) ∨
    (0 ≤ last ∧ (∃ pos, tl seq last = some pos) ∧
      ∀ {order pos : Int}, tl seq order = some pos → order ≤ last)

variable {f : Int → Int → Option Int} {seq order pos last : Int} {p : Int → Prop}

theorem rewrite_congr {g}
    (h : ∀ {seq order pos : Int}, tl seq order = some pos → f seq pos = g seq pos) :
    tl.rewrite f = tl.rewrite g := by
  funext seq order
  unfold rewrite
  cases hpos : tl seq order with
  | none => rfl
  | some pos => exact h hpos

theorem rewrite_eq_some :
    tl.rewrite f seq order = some pos ↔ ∃ old, tl seq order = some old ∧ f seq old = some pos :=
  bind_eq_some_iff

theorem copy_congr {src dst p'} [DecidablePred p] [DecidablePred p']
    (h : ∀ {order pos : Int}, tl src order = some pos → (p pos ↔ p' pos)) :
    tl.copy src dst p = tl.copy src dst p' := by
  funext seq order
  unfold copy
  cases hpos : tl src order with
  | none => rfl
  | some pos => simp only [filter_some, h hpos]

theorem copy_eq_some {src dst} [DecidablePred p] :
    tl.copy src dst p dst order = some pos ↔ (tl src order = some pos ∧ p pos) ∨
      (tl dst order = some pos ∧ ∀ old, tl src order = some old → ¬ p old) := by
  unfold copy
  rw [if_pos rfl]
  cases tl src order with
  | none => simp
  | some old =>
    by_cases hp : p old
    · simp only [filter_some, hp, decide_true, if_true, some_or, some.injEq,
        forall_eq', not_true_eq_false, and_false, or_false]
      exact ⟨fun heq => ⟨heq, heq ▸ hp⟩, And.left⟩
    · simp only [filter_some, hp, decide_false, Bool.false_eq_true, if_false,
        none_or, some.injEq, forall_eq', not_false_eq_true, and_true]
      refine ⟨.inr, fun h => h.resolve_left ?_⟩
      rintro ⟨rfl, hpos⟩
      exact hp hpos

theorem Latest.unique {last'} (h : tl.Latest seq last) (h' : tl.Latest seq last') :
    last = last' := by
  rcases h with ⟨rfl, hnone⟩ | ⟨hnonneg, ⟨pos, hpos⟩, hmax⟩
  · rcases h' with ⟨rfl, -⟩ | ⟨-, ⟨pos', hpos'⟩, -⟩
    · rfl
    · rw [hnone] at hpos'
      cases hpos'
  · rcases h' with ⟨rfl, hnone⟩ | ⟨-, ⟨pos', hpos'⟩, hmax'⟩
    · rw [hnone] at hpos
      cases hpos
    · exact Int.le_antisymm (hmax' hpos) (hmax hpos')

theorem Latest.lt_next {next} (h : tl.Latest seq last) (hpos : tl seq order = some pos) :
    order < Cache.nextOrder last next := by
  rcases h with ⟨-, hnone⟩ | ⟨hnonneg, -, hmax⟩
  · rw [hnone] at hpos
    cases hpos
  · have := hmax hpos
    unfold Cache.nextOrder
    rw [if_neg (by omega)]
    omega

theorem Latest.next_nonneg (h : tl.Latest seq last) (hpos : 0 ≤ pos) :
    0 ≤ Cache.nextOrder last pos := by
  unfold Cache.nextOrder
  rcases h with ⟨rfl, -⟩ | ⟨hnonneg, -⟩ <;> split <;> omega

theorem Latest.put (h : tl.Latest seq last) (hpos : 0 ≤ pos) :
    (tl.put seq (Cache.nextOrder last pos) pos).Latest seq (Cache.nextOrder last pos) := by
  refine .inr ⟨h.next_nonneg hpos, ⟨pos, if_pos ⟨rfl, rfl⟩⟩, fun {order old} hold => ?_⟩
  unfold Timeline.put at hold
  split at hold
  next heq => exact Int.le_of_eq heq.2
  · exact Int.le_of_lt (h.lt_next hold)

theorem Latest.put_other {q} (h : tl.Latest q last) (hne : q ≠ seq) :
    (tl.put seq order pos).Latest q last := by
  have hsame : ∀ o, tl.put seq order pos q o = tl q o := fun o => if_neg fun heq => hne heq.1
  unfold Latest
  simp only [hsame]
  exact h

/-- **The tokens of a batch are put behind the last ones.** -/
inductive Appends : Timeline → List BatchToken → Timeline → Prop
  | nil (tl : Timeline) : Appends tl [] tl
  | cons {tl tl' : Timeline} {token : BatchToken} {rest : List BatchToken} {seq last : Int}
      (hseqs : token.seqs = [seq]) (hlast : tl.Latest seq last)
      (hlater : ∀ {order pos : Int}, tl seq order = some pos →
        order < Cache.nextOrder last token.pos)
      (h : Appends (tl.put seq (Cache.nextOrder last token.pos) token.pos) rest tl') :
      Appends tl (token :: rest) tl'

theorem Appends.unique {batch tl₁ tl₂} (h₁ : Appends tl batch tl₁) (h₂ : Appends tl batch tl₂) :
    tl₁ = tl₂ := by
  induction h₁ with
  | nil => cases h₂; rfl
  | cons hseqs hlast _ _ ih =>
    cases h₂ with
    | cons hseqs' hlast' _ h' =>
      obtain rfl := List.singleton_inj.mp (hseqs.symm.trans hseqs')
      obtain rfl := hlast.unique hlast'
      exact ih h'

end Timeline

/-! ## The history -/

namespace History

variable {h h' : History}

def timeline (h : History) : Timeline := fun seq order => (h.lookup seq order).map Prod.fst

theorem timeline_remove (h : History) (seq p0 p1 : Int) : (h.remove seq p0 p1).timeline =
    h.timeline.rewrite fun q pos =>
      if Concerns seq q ∧ Within p0 p1 pos then none else some pos := by
  funext q order
  unfold timeline Timeline.rewrite
  rw [lookup_remove]
  dsimp only
  cases h.lookup q order with
  | none => split <;> rfl
  | some entry =>
    by_cases hq : Concerns seq q
    · by_cases hin : Within p0 p1 entry.1 <;> simp [hq, hin]
    · simp [hq]

theorem timeline_keep (h : History) (seq : Int) : (h.keep seq).timeline =
    h.timeline.rewrite fun q pos => if q = seq then some pos else none := by
  funext q order
  unfold timeline Timeline.rewrite
  rw [lookup_keep]
  dsimp only
  cases h.lookup q order with
  | none => split <;> rfl
  | some entry => by_cases hq : q = seq <;> simp [hq]

variable {seq p0 p1 : Int}

theorem latest_of_last (hordered : ∀ {order pos : Int},
    h.timeline seq order = some pos → 0 ≤ order) :
    h.timeline.Latest seq
      ((((h.sequences.find? seq).getD {}).tokens.last?.map Prod.fst).getD (-1)) := by
  have hlookup : ∀ order, h.timeline seq order =
      (((h.sequences.find? seq).getD {}).tokens.find? order).map Prod.fst := by
    intro order
    rw [lookup_getD]
    rfl
  cases hlast : ((h.sequences.find? seq).getD {}).tokens.last? with
  | none =>
    refine .inl ⟨rfl, fun order => ?_⟩
    rw [hlookup, last?_eq_none hlast]
    rfl
  | some last =>
    obtain ⟨hfind, hmax⟩ := last?_eq_some hlast
    have hpos : h.timeline seq last.1 = some last.2.1 := by
      rw [hlookup, hfind]
      rfl
    refine .inr ⟨hordered hpos, ⟨_, hpos⟩, fun {order pos} horder => ?_⟩
    rw [hlookup, map_eq_some_iff] at horder
    obtain ⟨entry, hentry, -⟩ := horder
    exact hmax order entry hentry

theorem timeline_put (h : History) (seq order pos : Int) (token : Nat) :
    (h.put seq ((h.sequences.find? seq).getD {}) order pos token).timeline =
      h.timeline.put seq order pos := by
  funext q o
  unfold timeline Timeline.put put
  rw [lookup_insert]
  by_cases hq : q = seq
  · subst hq
    rw [if_pos rfl, find?_insert]
    by_cases ho : o = order
    · simp [ho]
    · rw [if_neg ho, if_neg (fun hboth => ho hboth.2), lookup_getD]
  · rw [if_neg hq, if_neg (fun hboth => hq hboth.1)]

/-- **A token is put behind the last one of its sequence.** -/
theorem timeline_accept {pos token} (hok : h.accept seq pos token = .ok h')
    (hordered : ∀ {order pos : Int}, h.timeline seq order = some pos → 0 ≤ order) :
    0 ≤ pos ∧ ∃ last, h.timeline.Latest seq last ∧
      h'.timeline = h.timeline.put seq (Cache.nextOrder last pos) pos := by
  have hlatest := latest_of_last hordered
  unfold accept at hok
  split at hok
  · cases hok
  next hposition =>
  refine ⟨by omega, _, hlatest, ?_⟩
  dsimp only at hok
  split at hok
  · cases hok
  split at hok
  next hnone =>
    cases hok
    rw [timeline_put, hnone]
    rfl
  next last hlast =>
  split at hok
  · cases hok
  cases hok
  rw [hlast] at hlatest ⊢
  rcases hlatest with ⟨hneg, hempty⟩ | ⟨hnonneg, -⟩
  · have hfind := (last?_eq_some hlast).1
    have hsome := hempty last.1
    unfold timeline at hsome
    rw [← lookup_getD, hfind] at hsome
    cases hsome
  · have hnonneg : 0 ≤ last.1 := hnonneg
    rw [timeline_put]
    show _ = h.timeline.put seq (Cache.nextOrder last.1 pos) pos
    unfold Cache.nextOrder
    rw [if_neg (Int.not_lt.mpr hnonneg)]

theorem lookup_copy {src dst} (hok : h.copy src dst p0 p1 = .ok h') (seq order : Int) :
    h'.lookup seq order =
      if seq = dst then
        ((h.lookup src order).filter fun entry => decide (Within p0 p1 entry.1)).or
          (h.lookup dst order)
      else h.lookup seq order := by
  have hnothing : (∀ entry, h.lookup src order = some entry → Within p0 p1 entry.1 →
      h.lookup dst order = some entry) → h.lookup seq order =
      if seq = dst then
        ((h.lookup src order).filter fun entry => decide (Within p0 p1 entry.1)).or
          (h.lookup dst order)
      else h.lookup seq order := by
    intro hsame
    split
    next heq =>
      subst heq
      cases hsrc : h.lookup src order with
      | none => rfl
      | some entry =>
        by_cases hin : Within p0 p1 entry.1
        · simp [filter_some, hin, hsame entry hsrc hin]
        · simp [filter_some, hin]
    · rfl
  unfold copy at hok
  split at hok
  next heq =>
    cases hok
    refine hnothing fun entry hsrc _ => ?_
    rw [← heq]
    exact hsrc
  split at hok
  next hmissing =>
    cases hok
    refine hnothing fun entry hsrc _ => ?_
    unfold lookup at hsrc
    rw [hmissing] at hsrc
    cases hsrc
  next source hsource =>
  split at hok
  next hempty =>
    cases hok
    refine hnothing fun entry _ hin => ?_
    exact absurd (Int.lt_of_le_of_lt hin.1 hin.2) (Int.not_lt.mpr hempty)
  dsimp only at hok
  split at hok
  · cases hok
  split at hok
  · cases hok
  next hagree =>
  have hlookup : h.lookup src order = source.tokens.find? order := by
    unfold lookup
    rw [hsource]
    rfl
  have hcopied : (copied source p0 p1).find? order =
      (h.lookup src order).filter fun entry => decide (Within p0 p1 entry.1) := by
    unfold copied
    rw [find?_filterMapWithKey, hlookup]
    cases source.tokens.find? order with
    | none => rfl
    | some entry => by_cases hin : Within p0 p1 entry.1 <;> simp [filter_some, hin]
  split at hok
  next hnone =>
    cases hok
    refine hnothing fun entry hsrc hin => ?_
    have := isEmpty_iff.mp hnone order
    rw [hcopied, hsrc] at this
    simp [filter_some, hin] at this
  · cases hok
    rw [lookup_insert]
    split
    · show (List.foldl _ _ _ : OrdMap Int (Int × Nat)).find? order = _
      rw [find?_foldl_emplace, lookup_getD, ← hcopied]
      show (h.lookup dst order).or ((copied source p0 p1).find? order) = _
      cases hdst : h.lookup dst order with
      | none => simp
      | some entry =>
        cases hsrc : (copied source p0 p1).find? order with
        | none => rfl
        | some entry' =>
          -- the two tokens of this order were compared before
          have hboth : entry = entry' := by
            by_contra hne
            refine hagree (List.any_eq_true.mpr ⟨(order, entry'), find?_eq_some.mp hsrc, ?_⟩)
            rw [lookup_getD, hdst]
            simp [hne]
          rw [hboth]
    · rfl

theorem timeline_copy {src dst} (hok : h.copy src dst p0 p1 = .ok h') :
    h'.timeline = h.timeline.copy src dst (Within p0 p1) := by
  funext seq order
  unfold timeline Timeline.copy
  rw [lookup_copy hok]
  dsimp only
  split
  · cases h.lookup src order with
    | none => rfl
    | some entry => by_cases hin : Within p0 p1 entry.1 <;> simp [filter_some, hin]
  · rfl

theorem not_within_of_le (h : high p1 ≤ lowest p0) (pos : Int) : ¬ Within p0 p1 pos :=
  fun hin => absurd (Int.lt_of_le_of_lt hin.1 hin.2) (Int.not_lt.mpr h)

theorem lookup_add {delta} (hok : h.add seq p0 p1 delta = .ok h')
    (hnonneg : ∀ {seq order : Int} {entry : Int × Nat}, h.lookup seq order = some entry →
      0 ≤ entry.1) (q order : Int) :
    h'.lookup q order = (h.lookup q order).bind fun entry =>
      if Concerns seq q ∧ Within p0 p1 entry.1 then
        if entry.1 + delta < 0 then none else some (entry.1 + delta, entry.2)
      else some entry := by
  unfold add at hok
  split at hok
  next hnothing =>
    cases hok
    cases hentry : h.lookup q order with
    | none => rfl
    | some entry =>
      have hpos := Int.not_lt.mpr (hnonneg hentry)
      rw [bind_some]
      rcases hnothing with rfl | hempty
      · simp [hpos]
      · rw [if_neg fun hboth => not_within_of_le hempty entry.1 hboth.2]
  split at hok
  · cases hok
  · cases hok
    rw [lookup_movePositions]
    cases hentry : h.lookup q order with
    | none => split <;> rfl
    | some entry =>
      have hpos := hnonneg hentry
      by_cases hq : Concerns seq q
      · by_cases hin : lowest p0 ≤ entry.1 ∧ entry.1 < high p1
        · by_cases hneg : entry.1 + delta < 0 <;> simp [Within, hq, hin, hneg]
        · simp [Within, hq, hin, hpos]
      · simp [hq]

theorem timeline_add {delta} (hok : h.add seq p0 p1 delta = .ok h')
    (hnonneg : ∀ {seq order pos : Int}, h.timeline seq order = some pos → 0 ≤ pos) :
    h'.timeline = h.timeline.rewrite fun q pos =>
      if Concerns seq q ∧ Within p0 p1 pos then if pos + delta < 0 then none else some (pos + delta)
      else some pos := by
  have hold : ∀ {q order : Int} {entry : Int × Nat}, h.lookup q order = some entry →
      0 ≤ entry.1 := fun {q order entry} hentry =>
    hnonneg (show (h.lookup q order).map Prod.fst = some entry.1 by rw [hentry]; rfl)
  funext q order
  unfold timeline Timeline.rewrite
  rw [lookup_add hok hold]
  dsimp only
  cases h.lookup q order with
  | none => rfl
  | some entry =>
    rw [bind_some, map_some, bind_some]
    split
    · split <;> rfl
    · rfl

theorem lookup_divide {d} (hok : h.divide seq p0 p1 d = .ok h') (q order : Int) :
    h'.lookup q order = (h.lookup q order).map fun entry =>
      if Concerns seq q ∧ Within p0 p1 entry.1 then (entry.1.tdiv d, entry.2) else entry := by
  unfold divide at hok
  split at hok
  · cases hok
  split at hok
  next hnothing =>
    cases hok
    cases h.lookup q order with
    | none => rfl
    | some entry =>
      rw [map_some]
      rcases hnothing with hempty | rfl
      · rw [if_neg fun hboth => not_within_of_le hempty entry.1 hboth.2]
      · simp
  · cases hok
    unfold lookup
    dsimp only
    rw [find?_mapWithKey]
    cases h.sequences.find? q with
    | none => rfl
    | some stream =>
      by_cases hq : Concerns seq q
      · simp only [map_some, bind_some, if_pos hq, Stream.rebuild,
          find?_mapValues]
        cases stream.tokens.find? order with
        | none => rfl
        | some entry => by_cases hin : Within p0 p1 entry.1 <;> simp [hq, hin]
      · simp only [map_some, bind_some, if_neg hq]
        cases stream.tokens.find? order with
        | none => rfl
        | some entry => simp [hq]

theorem timeline_divide {d} (hok : h.divide seq p0 p1 d = .ok h') :
    h'.timeline = h.timeline.rewrite fun q pos =>
      if Concerns seq q ∧ Within p0 p1 pos then some (pos.tdiv d) else some pos := by
  funext q order
  unfold timeline Timeline.rewrite
  rw [lookup_divide hok]
  dsimp only
  cases h.lookup q order with
  | none => rfl
  | some entry =>
    rw [map_some, map_some, map_some, bind_some]
    split <;> rfl

end History

end ExpertStreaming.KvCache
