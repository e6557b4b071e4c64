import ExpertStreaming.KvCache.Qwen

/-! # What a change of positions leaves

A change of positions of one sequence must not be seen by the others, although rows are
shared: a row that is split gives the changed token a free row with a copy of its payload. The
tokens of a sequence are compared row by row, with the bytes that attention reads for them.
-/
namespace ExpertStreaming.KvCache
open Lib List Option Finset

/-! ## Payload -/

namespace Tensor

theorem row_copyRow (t : Tensor) (width source destination r : Nat) :
    (t.copyRow width source destination).row width r =
      t.row width (if r = destination then source else r) := by
  have hlength : (t.row width source).length = width := Memory.length_read _ _ _
  unfold copyRow row
  dsimp only
  split
  next heq =>
    subst heq
    have hself := Memory.read_write_self t.bytes (r * width) (t.row width source)
    rw [hlength] at hself
    exact hself
  next hne =>
  refine Memory.read_write_apart _ ?_
  rw [Memory.length_read]
  rcases Nat.lt_or_gt_of_ne hne with hlt | hgt
  · have := Nat.mul_le_mul_right width hlt
    rw [Nat.succ_mul] at this
    exact .inl this
  · have := Nat.mul_le_mul_right width hgt
    rw [Nat.succ_mul] at this
    exact .inr this

end Tensor

namespace Cache

def payloadRow (c : Cache) (row : Nat) : List (Option (List UInt8)) :=
  c.payloads.map fun tensor => tensor.map fun t => t.row (t.nbytes / c.size) row

open Transformed (source)

theorem source_cons (copy : Nat × Nat) (copies : List (Nat × Nat)) (r : Nat) :
    source (copy :: copies) r = if r = copy.2 then copy.1 else source copies r := by
  unfold source
  rw [find?_cons]
  by_cases heq : r = copy.2
  · simp [heq]
  · simp [heq, Ne.symm heq]

theorem source_eq_or (copies : List (Nat × Nat)) (r : Nat) :
    source copies r = r ∨ ∃ copy ∈ copies, source copies r = copy.1 := by
  unfold source
  split
  next copy hfind => exact .inr ⟨copy, mem_of_find?_eq_some hfind, rfl⟩
  · exact .inl rfl

theorem row_copyPayload {copies : List (Nat × Nat)} (hnodup : (copies.map Prod.snd).Nodup)
    (hapart : ∀ copy ∈ copies, ∀ copy' ∈ copies, copy.1 ≠ copy'.2) (size layer r : Nat)
    (t : Tensor) :
    Tensor.row { t with bytes := copyPayload size copies layer t } (t.nbytes / size) r =
      t.row (t.nbytes / size) (source copies r) := by
  induction copies generalizing t with
  | nil => rfl
  | cons copy rest ih =>
    obtain ⟨hnot, hnodup⟩ := nodup_cons.mp hnodup
    have hrest := ih hnodup
      (fun a ha b hb => hapart a (mem_cons_of_mem _ ha) b (mem_cons_of_mem _ hb))
      (t.copyRow (t.nbytes / size) copy.1 copy.2)
    refine hrest.trans ?_
    show Tensor.row _ (t.nbytes / size) _ = _
    rw [Tensor.row_copyRow, source_cons]
    by_cases heq : r = copy.2
    · have hsame : source rest r = r := by
        refine Transformed.source_of_not_mem fun row hmem => hnot ?_
        exact mem_map.mpr ⟨(row, r), hmem, heq⟩
      rw [hsame, if_pos heq]
    · rw [if_neg heq, if_neg]
      rcases source_eq_or rest r with hsame | ⟨other, hmem, hsame⟩
      · rw [hsame]
        exact heq
      · rw [hsame]
        exact hapart other (mem_cons_of_mem _ hmem) copy mem_cons_self

theorem map_mapBytes {β : Type} {f : Nat → Tensor → Memory UInt8} {g g' : Tensor → β}
    (h : ∀ layer t, g { t with bytes := f layer t } = g' t) (tensors : List (Option Tensor)) :
    (mapBytes f tensors).map (Option.map g) = tensors.map (Option.map g') := by
  unfold mapBytes
  refine ext_getElem? fun i => ?_
  rw [getElem?_map, getElem?_mapIdx, getElem?_map]
  cases tensors[i]? with
  | none => rfl
  | some tensor =>
    cases tensor with
    | none => rfl
    | some t => exact congrArg (some ∘ some) (h i t)

/-- **A row has the payload of the row its token came from.** -/
theorem payloadRow_applyPlan (env : Env) (c : Cache) {plan : Plan}
    (hnodup : (plan.copies.map Prod.snd).Nodup)
    (hapart : ∀ copy ∈ plan.copies, ∀ copy' ∈ plan.copies, copy.1 ≠ copy'.2) (r : Nat) :
    (c.applyPlan env plan).payloadRow r = c.payloadRow (source plan.copies r) := by
  have hsize : (c.applyPlan env plan).size = c.size := length_applyChanges _ _
  have hrow := fun layer (t : Tensor) => row_copyPayload hnodup hapart c.size layer r t
  unfold payloadRow
  rw [hsize]
  show ((mapBytes _ c.k ++ mapBytes _ c.v ++ mapBytes _ c.kr).map (Option.map _)) =
    (c.k ++ c.v ++ c.kr).map (Option.map _)
  rw [map_append, map_append, map_append, map_append,
    map_mapBytes hrow, map_mapBytes hrow, map_mapBytes hrow]

/-! ## Tokens -/

def Stores (c : Cache) (seq : Int) (t : Token) : Prop :=
  ∃ cell, c.cells[t.row]? = some cell ∧ 0 ≤ cell.pos ∧ seq ∈ cell.seqId ∧
    cell.order = t.order ∧ cell.pos = t.pos

instance (c : Cache) (seq : Int) (t : Token) : Decidable (c.Stores seq t) :=
  decidable_of_iff ((c.cells[t.row]?).any fun cell => decide (0 ≤ cell.pos ∧ seq ∈ cell.seqId ∧
      cell.order = t.order ∧ cell.pos = t.pos))
    (by simp only [Option.any_eq_true, decide_eq_true_eq]; exact Iff.rfl)

def Transform.position (t : Transform) (pos : Int) : Option Int :=
  if t.first ≤ pos ∧ pos < t.last then if t.next pos < 0 then none else some (t.next pos)
  else some pos

/-- **The tokens of a sequence at their new positions**: each one that stays has one row, and
the payload of the row it had. -/
structure Repositioned (t : Transform) (c c' : Cache) (seq : Int) (origin : Nat → Nat) :
    Prop where
  kept : ∀ {token : Token} {pos : Int}, c.Stores seq token → t.position token.pos = some pos →
    ∃ row, origin row = token.row ∧ c'.Stores seq ⟨token.order, pos, row⟩
  only : ∀ {token : Token}, c'.Stores seq token →
    ∃ pos, c.Stores seq ⟨token.order, pos, origin token.row⟩ ∧ t.position pos = some token.pos
  apart : ∀ {token token' : Token}, c'.Stores seq token → c'.Stores seq token' →
    origin token.row = origin token'.row → token = token'
  payload : ∀ {token : Token}, c'.Stores seq token →
    c'.payloadRow token.row = c.payloadRow (origin token.row)

/-- A sequence that is not affected: tokens, rows and payload. -/
structure Unmoved (c c' : Cache) (seq : Int) : Prop where
  tokens : ∀ token, c'.Stores seq token ↔ c.Stores seq token
  payload : ∀ {token : Token}, c.Stores seq token →
    c'.payloadRow token.row = c.payloadRow token.row

theorem Stores.unique {c : Cache} {seq : Int} {t t' : Token} (h : c.Stores seq t)
    (h' : c.Stores seq t') (heq : t.row = t'.row) : t = t' := by
  obtain ⟨cell, hcell, -, -, horder, hpos⟩ := h
  obtain ⟨cell', hcell', -, -, horder', hpos'⟩ := h'
  rw [heq] at hcell
  obtain rfl := some.inj (hcell.symm.trans hcell')
  obtain ⟨order, pos, row⟩ := t
  obtain ⟨order', pos', row'⟩ := t'
  dsimp only at heq horder horder' hpos hpos'
  rw [heq, ← horder, ← horder', ← hpos, ← hpos']

namespace Transform

variable {t : Transform} {cell : Cell}

theorem position_of_stay (h : t.fate cell = .stay) (hpos : 0 ≤ cell.pos)
    (hseq : t.seq < 0 ∨ t.seq ∈ cell.seqId) : t.position cell.pos = some cell.pos := by
  unfold position
  split
  next hin =>
    have htouches : t.Touches cell := ⟨hin.1, hin.2, hseq⟩
    have hsame : t.next cell.pos = cell.pos := by
      by_contra hnot
      unfold fate at h
      rw [if_neg (by simp [htouches, hnot])] at h
      split at h
      · cases h
      split at h <;> cases h
    rw [hsame, if_neg (Int.not_lt.mpr hpos)]
  · rfl

theorem position_of_touches (h : t.Touches cell) (hnext : 0 ≤ t.next cell.pos) :
    t.position cell.pos = some (t.next cell.pos) := by
  unfold position
  rw [if_pos ⟨h.1, h.2.1⟩, if_neg (Int.not_lt.mpr hnext)]

theorem position_of_drop (h : t.fate cell = .drop) : t.position cell.pos = none := by
  obtain ⟨htouches, hneg⟩ := fate_drop h
  unfold position
  rw [if_pos ⟨htouches.1, htouches.2.1⟩, if_pos hneg]

theorem nonneg_of_position {pos next} (hpos : 0 ≤ pos) (h : t.position pos = some next) :
    0 ≤ next := by
  unfold position at h
  split at h
  · split at h
    · cases h
    next hnonneg =>
      cases h
      exact Int.not_lt.mp hnonneg
  · cases h
    exact hpos

theorem mem_after_of_position {seq next} (hmem : seq ∈ cell.seqId) (hsplit : t.fate cell ≠ .split)
    (h : t.position cell.pos = some next) :
    seq ∈ (t.after cell).seqId := by
  unfold after
  cases hfate : t.fate cell with
  | stay => exact hmem
  | drop =>
    rw [position_of_drop hfate] at h
    cases h
  | split => exact absurd hfate hsplit
  | move => exact hmem

theorem after_of_concerned {seq} (hseq : History.Concerns t.seq seq)
    (hmem : seq ∈ (t.after cell).seqId) (hpos : 0 ≤ cell.pos) :
    t.fate cell ≠ .split ∧ seq ∈ cell.seqId ∧ (t.after cell).order = cell.order ∧
      t.position cell.pos = some (t.after cell).pos := by
  have hold := (Transformed.after_subset cell).1 hmem
  have hconcerned : t.seq < 0 ∨ t.seq ∈ cell.seqId := by
    rcases hseq with hneg | rfl
    · exact .inl hneg
    · exact .inr hold
  unfold after at hmem ⊢
  cases hfate : t.fate cell with
  | stay => exact ⟨nofun, hold, rfl, position_of_stay hfate hpos hconcerned⟩
  | drop =>
    rw [hfate] at hmem
    dsimp only at hmem
    -- the sequence that is changed is not left in the row
    have hgone : seq ∉ cell.without t.seq := by
      unfold Cell.without
      rcases hseq with hneg | rfl
      · rw [if_pos hneg]
        exact notMem_empty _
      · split
        · exact notMem_empty _
        · exact notMem_erase _ _
    unfold dropped at hmem
    split at hmem
    · exact absurd hmem (notMem_empty _)
    · exact absurd hmem hgone
  | split =>
    rw [hfate] at hmem
    rcases hseq with hneg | rfl
    · exact absurd hneg (Int.not_lt.mpr (seq_nonneg_of_split hfate))
    · exact absurd hmem (notMem_erase _ _)
  | move =>
    obtain ⟨htouches, hnext, -⟩ := fate_move hfate
    exact ⟨nofun, hold, rfl, position_of_touches htouches hnext⟩

theorem after_of_other {seq} (hseq : ¬ History.Concerns t.seq seq) (hmem : seq ∈ cell.seqId) :
    seq ∈ (t.after cell).seqId ∧
      (t.after cell).order = cell.order ∧ (t.after cell).pos = cell.pos := by
  simp only [History.Concerns, not_or, Int.not_lt] at hseq
  unfold after
  cases hfate : t.fate cell with
  | stay => exact ⟨hmem, rfl, rfl⟩
  | drop =>
    have hleft : seq ∈ cell.without t.seq := by
      unfold Cell.without
      rw [if_neg (Int.not_lt.mpr hseq.1)]
      exact mem_erase.mpr ⟨hseq.2, hmem⟩
    dsimp only
    unfold dropped
    rw [if_neg (ne_empty_of_mem hleft)]
    exact ⟨hleft, rfl, rfl⟩
  | split => exact ⟨mem_erase.mpr ⟨hseq.2, hmem⟩, rfl, rfl⟩
  | move =>
    obtain ⟨-, -, hneg | hown⟩ := fate_move hfate
    · exact absurd hneg (Int.not_lt.mpr hseq.1)
    · rw [hown] at hmem
      exact absurd (Finset.mem_singleton.mp hmem) hseq.2

end Transform

namespace Transformed

variable {t : Transform} {c c' : Cache} {copies : List (Nat × Nat)}

theorem source_of_token (h : Transformed t c.cells c'.cells copies) {row cell}
    (hcell : c.cells[row]? = some cell) (hne : ¬ cell.Free) : source copies row = row := by
  refine source_of_not_mem fun other hcopy => ?_
  obtain ⟨-, spare, hspare, hempty⟩ := h.ends hcopy
  obtain rfl := some.inj (hcell.symm.trans hspare)
  exact hne hempty

theorem apart_of_copies (h : Transformed t c.cells c'.cells copies) :
    ∀ copy ∈ copies, ∀ copy' ∈ copies, copy.1 ≠ copy'.2 := by
  rintro ⟨row, r⟩ hcopy ⟨row', r'⟩ hcopy' heq
  obtain ⟨⟨a, ha, hsplit⟩, -⟩ := h.ends hcopy
  obtain ⟨-, spare, hspare, hempty⟩ := h.ends hcopy'
  dsimp only at heq
  subst heq
  obtain rfl := some.inj (ha.symm.trans hspare)
  obtain ⟨-, -, hmem, -⟩ := Transform.fate_split hsplit
  exact Cell.not_free_of_mem hmem hempty

theorem stores_splitOff (h : Transformed t c.cells c'.cells copies) {row r : Nat} {cell : Cell}
    (hcell : c.cells[row]? = some cell) (hsplit : t.fate cell = .split)
    (hcopy : (row, r) ∈ copies) : c'.Stores t.seq ⟨cell.order, t.next cell.pos, r⟩ := by
  obtain ⟨-, hnonneg, -, -⟩ := Transform.fate_split hsplit
  obtain ⟨-, spare, hspare, hempty⟩ := h.ends hcopy
  rcases h.spare hspare hempty with ⟨-, hno⟩ | ⟨row', a, hcopy', ha, -, hnow⟩
  · exact absurd hcopy (hno row)
  · obtain rfl := mem_of_snd_eq h.targets hcopy hcopy'
    obtain rfl := some.inj (hcell.symm.trans ha)
    exact ⟨_, hnow, hnonneg, Finset.mem_singleton_self _, rfl, rfl⟩

theorem repositioned (h : Transformed t c.cells c'.cells copies)
    (hfirst : 0 ≤ t.first)
    (hpayload : ∀ r, c'.payloadRow r = c.payloadRow (source copies r)) {seq : Int}
    (hseq : History.Concerns t.seq seq) : Repositioned t c c' seq (source copies) where
  kept := by
    rintro ⟨order, pos, row⟩ next ⟨cell, hcell, hpos, hmem, rfl, rfl⟩ hnext
    have hne := Cell.not_free_of_mem hmem
    dsimp only at hcell hnext ⊢
    by_cases hsplit : t.fate cell = .split
    · obtain ⟨r, hcopy⟩ := h.copied hcell hsplit
      obtain ⟨htouches, hnonneg, -, -⟩ := Transform.fate_split hsplit
      rw [Transform.position_of_touches htouches hnonneg] at hnext
      cases hnext
      obtain rfl : seq = t.seq :=
        hseq.resolve_left (Int.not_lt.mpr (Transform.seq_nonneg_of_split hsplit))
      exact ⟨r, source_of_mem h.targets hcopy, h.stores_splitOff hcell hsplit hcopy⟩
    · have hstays := Transform.mem_after_of_position hmem hsplit hnext
      obtain ⟨-, -, horder, hposition⟩ := Transform.after_of_concerned hseq hstays hpos
      obtain rfl := some.inj (hnext.symm.trans hposition)
      refine ⟨row, h.source_of_token hcell hne, t.after cell, h.done hcell hne, ?_, hstays,
        horder, rfl⟩
      exact Transform.nonneg_of_position hpos hnext
  only := by
    rintro ⟨order, pos, row⟩ ⟨b, hb, hpos, hmem, rfl, rfl⟩
    dsimp only at hb ⊢
    rcases h.origin hb (ne_empty_of_mem hmem) with
      ⟨a, ha, rfl, hno⟩ | ⟨from', a, src, hcopy, ha, hsplit, rfl⟩
    · have hold := Transform.nonneg_of_after hfirst hpos
      obtain ⟨-, hmem', horder, hposition⟩ := Transform.after_of_concerned hseq hmem hold
      rw [source_of_not_mem hno]
      exact ⟨a.pos, ⟨a, ha, hold, hmem', horder.symm, rfl⟩, hposition⟩
    · obtain ⟨htouches, hnonneg, hmem', -⟩ := Transform.fate_split hsplit
      obtain rfl := Finset.mem_singleton.mp hmem
      have hold := Int.le_trans hfirst htouches.1
      rw [source_of_mem h.targets hcopy]
      exact ⟨a.pos, ⟨a, ha, hold, hmem', rfl, rfl⟩,
        Transform.position_of_touches htouches hnonneg⟩
  apart := by
    intro token token' hstores hstores' heq
    refine hstores.unique hstores' ?_
    by_contra hrows
    obtain ⟨a, ha, -, hmem, -, -⟩ := hstores
    obtain ⟨b, hb, -, hmem', -, -⟩ := hstores'
    exact disjoint_left.mp (h.apart ha hb hrows heq) hmem hmem'
  payload _ := hpayload _

theorem unmoved (h : Transformed t c.cells c'.cells copies)
    (hpayload : ∀ r, c'.payloadRow r = c.payloadRow (source copies r)) {seq}
    (hseq : ¬ History.Concerns t.seq seq) : Unmoved c c' seq where
  tokens := by
    rintro ⟨order, pos, row⟩
    constructor
    · rintro ⟨b, hb, hpos, hmem, rfl, rfl⟩
      rcases h.origin hb (ne_empty_of_mem hmem) with
        ⟨a, ha, rfl, -⟩ | ⟨from', a, src, -, -, -, rfl⟩
      · have hmem' := (after_subset a).1 hmem
        obtain ⟨-, horder, hsame⟩ := Transform.after_of_other hseq hmem'
        exact ⟨a, ha, hsame ▸ hpos, hmem', horder.symm, hsame.symm⟩
      · exact absurd (.inr (Finset.mem_singleton.mp hmem)) hseq
    · rintro ⟨a, ha, hpos, hmem, rfl, rfl⟩
      obtain ⟨hmem', horder, hsame⟩ := Transform.after_of_other hseq hmem
      exact ⟨t.after a, h.done ha (Cell.not_free_of_mem hmem), hsame ▸ hpos, hmem', horder, hsame⟩
  payload := by
    rintro token ⟨a, ha, -, hmem, -, -⟩
    rw [hpayload, h.source_of_token ha (Cell.not_free_of_mem hmem)]

end Transformed

/-- **What is left of a cache when its positions have changed.** -/
structure Changed (t : Transform) (c c' : Cache) : Prop where
  moved : ∀ {seq : Int}, History.Concerns t.seq seq → ∃ origin, Repositioned t c c' seq origin
  others : ∀ {seq : Int}, ¬ History.Concerns t.seq seq → Unmoved c c' seq
  /-- The number of rows in use is right if and only if it was. -/
  used : c.used < 2 ^ 32 → c.size < 2 ^ 32 →
    (∀ cell ∈ c.cells, 0 ≤ cell.pos → cell.seqId ≠ ∅) →
    (c'.used = c'.cells.countP Cell.occupied ↔ c.used = c.cells.countP Cell.occupied)
  src : c'.cells.map Cell.src = c.cells.map Cell.src

theorem Transform.position_of_nothing {t : Transform}
    (h : t.last ≤ t.first ∨ (t.divisor = 1 ∧ t.delta = 0)) {pos : Int} (hpos : 0 ≤ pos) :
    t.position pos = some pos := by
  unfold Transform.position
  split
  next hin =>
    rcases h with hempty | ⟨hdivisor, hdelta⟩
    · exact absurd (Int.lt_of_le_of_lt hin.1 hin.2) (Int.not_lt.mpr hempty)
    · have hsame : t.next pos = pos := by simp [Transform.next, hdivisor, hdelta]
      rw [hsame, if_neg (Int.not_lt.mpr hpos)]
  · rfl

theorem Changed.nothing {t : Transform} {c : Cache}
    (hnothing : t.last ≤ t.first ∨ (t.divisor = 1 ∧ t.delta = 0)) : Changed t c c where
  moved {seq} _ := by
    refine ⟨id, ?_, ?_, fun hstores hstores' heq => hstores.unique hstores' heq, fun _ => rfl⟩
    · rintro ⟨order, pos, row⟩ next ⟨cell, hcell, hpos, hmem, horder, rfl⟩ hnext
      obtain rfl := some.inj ((t.position_of_nothing hnothing hpos).symm.trans hnext)
      exact ⟨row, rfl, cell, hcell, hpos, hmem, horder, rfl⟩
    · rintro ⟨order, pos, row⟩ ⟨cell, hcell, hpos, hmem, horder, rfl⟩
      exact ⟨cell.pos, ⟨cell, hcell, hpos, hmem, horder, rfl⟩,
        t.position_of_nothing hnothing hpos⟩
  others _ := ⟨fun _ => .rfl, fun _ => rfl⟩
  used _ _ _ := .rfl
  src := rfl

theorem Changed.applyPlan {env t c plan} (hfirst : 0 ≤ t.first)
    (hplan : t.planRows c.cells (List.range c.size) { freeRows := c.freeRows } = .ok plan) :
    Changed t c (c.applyPlan env plan) := by
  have hdone : Transformed t c.cells (c.applyPlan env plan).cells plan.copies :=
    (Planned.all hfirst hplan).transformed
  have hpayload := payloadRow_applyPlan env c hdone.targets hdone.apart_of_copies
  refine ⟨fun hseq => ⟨_, hdone.repositioned hfirst hpayload hseq⟩,
    fun hseq => hdone.unmoved hpayload hseq, used_applyPlan env hfirst hplan, ?_⟩
  refine ext_getElem (by simp [hdone.length]) fun i hi hi' => ?_
  rw [length_map] at hi hi'
  rw [getElem_map, getElem_map]
  exact hdone.src_eq (getElem?_eq_getElem hi') (getElem?_eq_getElem hi)

end Cache

/-! ## The context -/

namespace Qwen

/-- **How a change of positions of a context ends.** -/
theorem transformPositions_outcome (env : Env) (q : Qwen) (seq p0 p1 delta divisor : Int)
    (refused : Option String) :
    (∃ message, q.transformPositions env seq p0 p1 delta divisor refused = (q, .threw message)) ∨
    (q.transformPositions env seq p0 p1 delta divisor refused = (q, .done) ∧
      (highest p1 ≤ max 0 p0 ∨ (divisor = 1 ∧ delta = 0))) ∨
    ∃ plan history logitPos,
      Cache.Transform.planRows ⟨seq, max 0 p0, highest p1, delta, divisor⟩ q.cache.cells
        (List.range q.cache.size) { freeRows := q.cache.freeRows } = .ok plan ∧
      q.moveSides ⟨seq, max 0 p0, highest p1, delta, divisor⟩ refused = .ok (history, logitPos) ∧
      q.transformPositions env seq p0 p1 delta divisor refused =
        (⟨q.cache.applyPlan env plan, history, logitPos⟩, .done) := by
  unfold transformPositions
  dsimp only
  split
  · exact .inl ⟨_, rfl⟩
  split
  next hnothing => exact .inr (.inl ⟨rfl, hnothing⟩)
  next hrange =>
  split
  next message hsides =>
    rcases Cache.transformPositions_outcome env q.cache seq p0 p1 delta divisor (some message) with
      ⟨message', heq⟩ | ⟨-, -, hnothing⟩ | ⟨plan, -, hside, -⟩
    · rw [heq]
      exact .inl ⟨message', rfl⟩
    · exact absurd hnothing hrange
    · cases hside
  next history logitPos hsides =>
  rcases Cache.transformPositions_outcome env q.cache seq p0 p1 delta divisor none with
    ⟨message, heq⟩ | ⟨-, -, hnothing⟩ | ⟨plan, ⟨-, hplan⟩, -, heq⟩
  · rw [heq]
    exact .inl ⟨message, rfl⟩
  · exact absurd hnothing hrange
  · rw [heq]
    exact .inr (.inr ⟨plan, history, logitPos, hplan, hsides, rfl⟩)

/-- **A change of positions is refused and changes nothing, or moves the tokens of its
sequences**, with their payload, and is seen by no other sequence. The number of rows in use is
right afterwards exactly if it was right before. -/
theorem transform_is_refused_or_isolated {env : Env} {q q' : Qwen}
    {seq p0 p1 delta divisor : Int} {refused : Option String} {reply : Reply}
    (hstep : q.transformPositions env seq p0 p1 delta divisor refused = (q', reply)) :
    (∃ message, reply = .threw message ∧ q' = q) ∨
    (reply = .done ∧
      Cache.Changed ⟨seq, max 0 p0, highest p1, delta, divisor⟩ q.cache q'.cache) := by
  rcases transformPositions_outcome env q seq p0 p1 delta divisor refused with
    ⟨message, heq⟩ | ⟨heq, hnothing⟩ | ⟨plan, history, logitPos, hplan, -, heq⟩
  · obtain ⟨rfl, rfl⟩ := Prod.mk.inj (hstep.symm.trans heq)
    exact .inl ⟨message, rfl, rfl⟩
  · obtain ⟨rfl, rfl⟩ := Prod.mk.inj (hstep.symm.trans heq)
    exact .inr ⟨rfl, .nothing hnothing⟩
  · obtain ⟨rfl, rfl⟩ := Prod.mk.inj (hstep.symm.trans heq)
    exact .inr ⟨rfl, .applyPlan (le_max_left _ _) hplan⟩

open Cache (eightRows threeSequences text)

def eightKeys : Qwen where
  cache := { eightRows with
    k := [some { type := eightRows.typeK, ne0 := 2, ne1 := 8, bytes := fun a => a.toUInt8 }] }

/-- The second token of sequence 0 is shared with sequence 1, where it moves. -/
theorem shared_row_is_isolated :
    ∃ evs q q', Trace (Step threeSequences) eightKeys evs q ∧
      q.cache.Stores 0 ⟨1, 1, 1⟩ ∧ q.cache.Stores 1 ⟨1, 1, 1⟩ ∧
      q.transformPositions threeSequences 1 1 (-1) 3 1 none = (q', .done) ∧
      Cache.Changed ⟨1, 1, posMax, 3, 1⟩ q.cache q'.cache ∧
      q'.cache.used = q'.cache.cells.countP Cell.occupied := by
  have hruns : (execute (call threeSequences) eightKeys
      [.decode [text 0 0, text 1 0] none, .seqCp 0 1 0 (-1) none]).any (fun r =>
        decide (r.2.cache.used = r.2.cache.cells.countP Cell.occupied ∧ r.2.cache.size = 8 ∧
          ∀ cell ∈ r.2.cache.cells, 0 ≤ cell.pos → cell.seqId ≠ ∅) &&
        decide (r.2.cache.Stores 0 ⟨1, 1, 1⟩) &&
        decide (r.2.cache.Stores 1 ⟨1, 1, 1⟩) &&
        decide ((r.2.transformPositions threeSequences 1 1 (-1) 3 1 none).2 = .done)) = true := by
    decide +kernel
  obtain ⟨⟨evs, q⟩, hrun, hok⟩ := (any_eq_true _ _).mp hruns
  simp only [Bool.and_eq_true, decide_eq_true_eq] at hok
  obtain ⟨⟨⟨⟨hused, hsize, hnamed⟩, hfirst⟩, hsecond⟩, hdone⟩ := hok
  obtain ⟨q', hstep⟩ :
      ∃ q', q.transformPositions threeSequences 1 1 (-1) 3 1 none = (q', .done) :=
    ⟨_, Prod.ext rfl hdone⟩
  refine ⟨evs, q, q', execute_trace hrun, hfirst, hsecond, hstep, ?_⟩
  rcases transform_is_refused_or_isolated hstep with ⟨message, hthrew, -⟩ | ⟨-, hchanged⟩
  · cases hthrew
  · have hle : q.cache.cells.countP Cell.occupied ≤ q.cache.size := countP_le_length
    exact ⟨hchanged, (hchanged.used (by omega) (by omega) hnamed).mpr hused⟩

/-- The history refuses a negative position when the row is taken: it is counted, not occupied. -/
theorem refused_token_is_counted :
    ∃ evs q q', Trace (Step threeSequences) eightKeys evs q ∧
      q.transformPositions threeSequences 0 0 (-1) 3 1 none = (q', .done) ∧
      q'.cache.used = 1 ∧ q'.cache.cells.countP Cell.occupied = 0 := by
  have hruns : (execute (call threeSequences) eightKeys [.decode [text (-5) 0] none]).any
      (fun r =>
        let r' := r.2.transformPositions threeSequences 0 0 (-1) 3 1 none
        decide (r'.2 = .done ∧ r'.1.cache.used = 1 ∧
          r'.1.cache.cells.countP Cell.occupied = 0)) = true := by
    decide +kernel
  obtain ⟨⟨evs, q⟩, hrun, hok⟩ := (any_eq_true _ _).mp hruns
  simp only [decide_eq_true_eq] at hok
  obtain ⟨hdone, hused, hcount⟩ := hok
  exact ⟨evs, q, _, execute_trace hrun, Prod.ext rfl hdone, hused, hcount⟩

end Qwen

end ExpertStreaming.KvCache
