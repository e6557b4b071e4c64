import ExpertStreaming.KvCache.Transform

/-! # Copying a sequence

`llama_kv_cache_seq_cp` gives the destination the source's tokens in a range of positions.
The tokens are shared, row by row; in an ordered cache the destination first gives up its
own tokens of the same orders.

Recording the copy of the recurrent state overwrites the argument `seq_id_src` with the slot
the state comes from. The loop over the rows that follows then shares the rows of that
sequence. While the source has a copy of its own pending, the rows shared are those of another
sequence, so the call is exact only under a condition, `Copyable`.
-/
namespace ExpertStreaming.KvCache
open Lib List Finset

namespace Cache

/-- The effect a copy should have on the tokens of all sequences. -/
structure CopiesExactly (c c' : Cache) (src dst p0 p1 : Int) : Prop where
  destination : ∀ t, c'.Holds dst t ↔ (c.Holds src t ∧ Copied p0 p1 t.pos) ∨
    (c.Holds dst t ∧ ∀ t', c.Holds src t' → Copied p0 p1 t'.pos → t'.order ≠ t.order)
  others : ∀ seq, seq ≠ dst → ∀ t, c'.Holds seq t ↔ c.Holds seq t

structure Copyable (c : Cache) (src dst p0 p1 : Int) : Prop where
  /-- The slot the state comes from names the rows of the source. -/
  resolved : ∀ cell ∈ c.cells, InRange p0 p1 cell.pos →
    (c.rowSource src dst ∈ cell.seqId ↔ src ∈ cell.seqId)
  /-- A negative bound stands for the largest position, which is then left out. -/
  bounded : p1 < 0 → ∀ cell ∈ c.cells, src ∈ cell.seqId → cell.pos < posMax
  /-- Only an ordered cache takes tokens away from the destination. -/
  replaced : c.ordered = false → ∀ cell ∈ c.cells, dst ∈ cell.seqId →
    cell.chronology ∈ c.copiedOrders src p0 p1 → src ∈ cell.seqId ∧ Copied p0 p1 cell.pos

instance (c : Cache) (src dst p0 p1 : Int) : Decidable (c.Copyable src dst p0 p1) :=
  decidable_of_iff
    ((∀ cell ∈ c.cells, InRange p0 p1 cell.pos →
        (c.rowSource src dst ∈ cell.seqId ↔ src ∈ cell.seqId)) ∧
      (p1 < 0 → ∀ cell ∈ c.cells, src ∈ cell.seqId → cell.pos < posMax) ∧
      (c.ordered = false → ∀ cell ∈ c.cells, dst ∈ cell.seqId →
        cell.chronology ∈ c.copiedOrders src p0 p1 → src ∈ cell.seqId ∧ Copied p0 p1 cell.pos))
    ⟨fun h => ⟨h.1, h.2.1, h.2.2⟩, fun h => ⟨h.resolved, h.bounded, h.replaced⟩⟩

variable {c c' : Cache} {src dst p0 p1 : Int}

theorem Copyable.inRange_iff (h : c.Copyable src dst p0 p1) {cell} (hmem : cell ∈ c.cells)
    (hsrc : src ∈ cell.seqId) : InRange p0 p1 cell.pos ↔ Copied p0 p1 cell.pos := by
  unfold InRange Copied lowest highest
  have hbound := fun hneg => h.bounded hneg cell hmem hsrc
  split <;> split <;> omega

theorem mem_copiedOrders {order} : order ∈ c.copiedOrders src p0 p1 ↔
    ∃ cell ∈ c.cells, (src ∈ cell.seqId ∧ Copied p0 p1 cell.pos) ∧ cell.chronology = order := by
  simp [copiedOrders, and_assoc]

theorem mem_copiedOrders_iff {order} : order ∈ c.copiedOrders src p0 p1 ↔
    ∃ t, c.Holds src t ∧ Copied p0 p1 t.pos ∧ t.order = order := by
  rw [mem_copiedOrders]
  constructor
  · rintro ⟨cell, hmem, ⟨hsrc, hrange⟩, rfl⟩
    obtain ⟨i, hi⟩ := mem_iff_getElem?.mp hmem
    have hpos : 0 ≤ cell.pos := Int.le_trans (le_max_left _ _) hrange.1
    exact ⟨⟨cell.chronology, cell.pos, i⟩, ⟨cell, hi, hpos, hsrc, rfl, rfl⟩, hrange, rfl⟩
  · rintro ⟨t, ⟨cell, hcell, -, hsrc, horder, hpos⟩, hrange, rfl⟩
    exact ⟨cell, mem_of_getElem? hcell, ⟨hsrc, hpos ▸ hrange⟩, horder⟩

/-! ## The rows after a copy -/

theorem seqCp_rows (hplain : c.recurrent = false) (h : c.seqCp src dst p0 p1 = some c') (i : Nat) :
    ∃ origin : Cell → Nat, c'.cells[i]? = c.cells[i]?.map fun cell =>
      { cell with
        src := origin cell
        seqId := if c.rowSource src dst ∈ cell.seqId ∧ InRange p0 p1 cell.pos then
          insert dst cell.seqId else cell.seqId } := by
  unfold seqCp at h
  rw [if_neg (by simp [hplain])] at h
  split at h
  next hstate =>
    split at h
    · cases h
      refine ⟨fun cell => if dst.toNat = i then (c.cell src.toNat).src else cell.src, ?_⟩
      show (((c.cells.modify _ _).map _)[i]?) = _
      rw [getElem?_map, getElem?_modify, Option.map_eq_map, Option.map_map]
      refine congrFun (congrArg Option.map (funext fun cell => ?_)) _
      dsimp only [Function.comp]
      by_cases hdst : dst.toNat = i
      · simp only [if_pos hdst]
        split <;> rfl
      · simp only [if_neg hdst]
        split <;> rfl
    · cases h
  next hstate =>
  cases h
  refine ⟨Cell.src, ?_⟩
  show ((c.cells.map _)[i]?) = _
  rw [getElem?_map]
  refine congrFun (congrArg Option.map (funext fun cell => ?_)) _
  unfold rowSource
  rw [if_neg hstate]
  split <;> rfl

theorem replaceOrders_rows (src dst p0 p1 : Int) (i : Nat) :
    (c.replaceOrders src dst p0 p1).cells[i]? = c.cells[i]?.map fun cell =>
      if c.ordered then (replaceRow (c.copiedOrders src p0 p1) src dst i cell).cell else cell := by
  unfold replaceOrders
  split
  · rw [getElem?_sweep]
  · rw [Option.map_id']

theorem rowSource_replaceOrders (src dst p0 p1 : Int) :
    (c.replaceOrders src dst p0 p1).rowSource src dst = c.rowSource src dst := by
  have hsame := framed_replaceOrders (c := c) src dst p0 p1
  have hsrc : ((c.replaceOrders src dst p0 p1).cell src.toNat).src = (c.cell src.toNat).src := by
    unfold cell
    rw [getD_eq_getElem?_getD, getD_eq_getElem?_getD, replaceOrders_rows]
    cases c.cells[src.toNat]? with
    | none => rfl
    | some a =>
      show (if c.ordered then _ else a).src = a.src
      split
      · unfold replaceRow
        split
        · dsimp only
          split <;> rfl
        · rfl
      · rfl
  unfold rowSource copiesState qnextSeqIdInRange
  rw [hsame.hasQnextState, hsame.slots, hsrc]
  unfold size
  rw [hsame.size]

/-- **The row after a copy**, by what it was: it lost the destination, gained it, or is
what it was. -/
inductive RowCopied (c : Cache) (src dst p0 p1 : Int) (a b : Cell) : Prop
  | replaced (hordered : c.ordered = true) (hdst : dst ∈ a.seqId) (hsrc : src ∉ a.seqId)
      (horder : a.chronology ∈ c.copiedOrders src p0 p1) (hseq : b.seqId = a.seqId.erase dst)
      (hpos : b.seqId ≠ ∅ → b.pos = a.pos ∧ b.order = a.order)
      (hfree : b.seqId = ∅ → b.pos = -1)
  | shared (hsrc : src ∈ a.seqId) (hrange : Copied p0 p1 a.pos)
      (hseq : b.seqId = insert dst a.seqId) (hpos : b.pos = a.pos) (horder : b.order = a.order)
  | kept (hnot : ¬ (src ∈ a.seqId ∧ Copied p0 p1 a.pos))
      (hown : c.ordered = true → dst ∈ a.seqId → src ∉ a.seqId →
        a.chronology ∉ c.copiedOrders src p0 p1)
      (hseq : b.seqId = a.seqId) (hpos : b.pos = a.pos) (horder : b.order = a.order)

theorem rowCopied (hplain : c.recurrent = false) (hcopy : c.Copyable src dst p0 p1)
    (h : (c.replaceOrders src dst p0 p1).seqCp src dst p0 p1 = some c') {i : Nat} {a b : Cell}
    (ha : c.cells[i]? = some a) (hb : c'.cells[i]? = some b) :
    RowCopied c src dst p0 p1 a b := by
  have hmem := mem_of_getElem? ha
  obtain ⟨origin, hrow⟩ := seqCp_rows
    ((framed_replaceOrders src dst p0 p1).recurrent.trans hplain) h i
  rw [rowSource_replaceOrders, replaceOrders_rows, hb, ha] at hrow
  have hb := Option.some.inj hrow
  dsimp only at hb
  -- a row that was not touched first is shared when it belongs to the source
  have huntouched : b = { a with
        src := origin a
        seqId := if c.rowSource src dst ∈ a.seqId ∧ InRange p0 p1 a.pos then
          insert dst a.seqId else a.seqId } →
      (c.ordered = true → dst ∈ a.seqId → src ∉ a.seqId →
        a.chronology ∉ c.copiedOrders src p0 p1) → RowCopied c src dst p0 p1 a b := by
    intro hb hown
    by_cases hshared : src ∈ a.seqId ∧ Copied p0 p1 a.pos
    · have hrange := (hcopy.inRange_iff hmem hshared.1).mpr hshared.2
      have hsource := (hcopy.resolved a hmem hrange).mpr hshared.1
      rw [if_pos ⟨hsource, hrange⟩] at hb
      subst hb
      exact .shared hshared.1 hshared.2 rfl rfl rfl
    · have hnot : ¬ (c.rowSource src dst ∈ a.seqId ∧ InRange p0 p1 a.pos) := by
        rintro ⟨hsource, hrange⟩
        have hsrc := (hcopy.resolved a hmem hrange).mp hsource
        exact hshared ⟨hsrc, (hcopy.inRange_iff hmem hsrc).mp hrange⟩
      rw [if_neg hnot] at hb
      subst hb
      exact .kept hshared hown rfl rfl rfl
  by_cases hordered : c.ordered = true
  · rw [if_pos hordered] at hb
    by_cases hguard : dst ∈ a.seqId ∧ src ∉ a.seqId ∧ a.chronology ∈ c.copiedOrders src p0 p1
    · unfold replaceRow at hb
      rw [if_pos hguard] at hb
      dsimp only at hb
      by_cases hleft : a.seqId.erase dst = ∅
      · rw [if_pos hleft] at hb
        dsimp only at hb
        rw [if_neg (fun hin => absurd hin.1 (notMem_empty _))] at hb
        subst hb
        refine .replaced hordered hguard.1 hguard.2.1 hguard.2.2 hleft.symm ?_ fun _ => rfl
        exact fun hne => absurd rfl hne
      · rw [if_neg hleft] at hb
        dsimp only at hb
        have hnot : ¬ (c.rowSource src dst ∈ a.seqId.erase dst ∧ InRange p0 p1 a.pos) := by
          rintro ⟨hsource, hrange⟩
          exact hguard.2.1 ((hcopy.resolved a hmem hrange).mp (mem_of_mem_erase hsource))
        rw [if_neg hnot] at hb
        subst hb
        exact .replaced hordered hguard.1 hguard.2.1 hguard.2.2 rfl (fun _ => ⟨rfl, rfl⟩)
          fun hempty => absurd hempty hleft
    · unfold replaceRow at hb
      rw [if_neg hguard] at hb
      exact huntouched hb fun _ hdst hsrc horder => hguard ⟨hdst, hsrc, horder⟩
  · rw [if_neg hordered] at hb
    exact huntouched hb fun ho => absurd ho hordered

theorem length_seqCp_replaceOrders
    (h : (c.replaceOrders src dst p0 p1).seqCp src dst p0 p1 = some c') :
    c'.cells.length = c.cells.length :=
  (framed_seqCp h).size.trans (framed_replaceOrders src dst p0 p1).size

/-! ## Exactness -/

theorem Sound.holds_unique (h : c.Sound) (ho : c.ordered = true) {seq t t'} (ht : c.Holds seq t)
    (ht' : c.Holds seq t') (horder : t.order = t'.order) : t = t' := by
  obtain ⟨a, ha, hpos, hseq, hchron, hat⟩ := ht
  obtain ⟨b, hb, hpos', hseq', hchron', hbt⟩ := ht'
  have hgiven := (h.chronological ho).given
  have hle := hgiven a (mem_of_getElem? ha) (ne_empty_of_mem hseq)
  have hle' := hgiven b (mem_of_getElem? hb) (ne_empty_of_mem hseq')
  have hsame : a.order = b.order := by
    unfold Cell.chronology at hchron hchron'
    rw [if_pos hle] at hchron
    rw [if_pos hle'] at hchron'
    rw [hchron, hchron', horder]
  by_cases hrow : t.row = t'.row
  · rw [hrow] at ha
    obtain rfl := Option.some.inj (ha.symm.trans hb)
    cases t
    cases t'
    simp only [Token.mk.injEq]
    exact ⟨horder, hat.symm.trans hbt, hrow⟩
  · exact absurd hsame ((h.chronological ho).distinct ha hb hrow hseq hseq')

theorem own_of_copied (hsound : c.ordered = true → c.Sound) (hcopy : c.Copyable src dst p0 p1)
    {i : Nat} {a : Cell} (ha : c.cells[i]? = some a) (hpos : 0 ≤ a.pos) (hdst : dst ∈ a.seqId)
    (horder : a.chronology ∈ c.copiedOrders src p0 p1) :
    (c.ordered = true ∧ src ∉ a.seqId) ∨ (src ∈ a.seqId ∧ Copied p0 p1 a.pos) := by
  by_cases ho : c.ordered = true
  · by_cases hsrc : src ∈ a.seqId
    · obtain ⟨t, ht, hrange, heq⟩ := mem_copiedOrders_iff.mp horder
      have hown : c.Holds src ⟨a.chronology, a.pos, i⟩ := ⟨a, ha, hpos, hsrc, rfl, rfl⟩
      obtain rfl := (hsound ho).holds_unique ho ht hown heq
      exact .inr ⟨hsrc, hrange⟩
    · exact .inl ⟨ho, hsrc⟩
  · exact .inr (hcopy.replaced (Bool.eq_false_of_not_eq_true ho) a (mem_of_getElem? ha) hdst
      horder)

theorem holds_of_row {a b : Cell} {seq t} (hb : c.cells[t.row]? = some b) (hp : b.pos = a.pos)
    (ho : b.order = a.order) (hpos : 0 ≤ a.pos) (hmem : seq ∈ b.seqId)
    (hchron : a.chronology = t.order) (hat : a.pos = t.pos) : c.Holds seq t :=
  ⟨b, hb, hp ▸ hpos, hmem, (Cell.chronology_congr hp ho).trans hchron, hp.trans hat⟩

theorem copiesExactly (hplain : c.recurrent = false) (hsound : c.ordered = true → c.Sound)
    (hcopy : c.Copyable src dst p0 p1)
    (h : (c.replaceOrders src dst p0 p1).seqCp src dst p0 p1 = some c') :
    CopiesExactly c c' src dst p0 p1 := by
  have hlen := length_seqCp_replaceOrders h
  -- the same row before and after
  have hrows : ∀ {i : Nat} {b : Cell}, c'.cells[i]? = some b →
      ∃ a, c.cells[i]? = some a ∧ RowCopied c src dst p0 p1 a b := by
    intro i b hb
    have hlt : i < c.cells.length := hlen ▸ (List.getElem?_eq_some_iff.mp hb).1
    exact ⟨_, getElem?_eq_getElem hlt,
      rowCopied hplain hcopy h (getElem?_eq_getElem hlt) hb⟩
  have hrows' : ∀ {i : Nat} {a : Cell}, c.cells[i]? = some a →
      ∃ b, c'.cells[i]? = some b ∧ RowCopied c src dst p0 p1 a b := by
    intro i a ha
    have hlt : i < c'.cells.length := hlen ▸ (List.getElem?_eq_some_iff.mp ha).1
    exact ⟨_, getElem?_eq_getElem hlt,
      rowCopied hplain hcopy h ha (getElem?_eq_getElem hlt)⟩
  constructor
  · intro t
    constructor
    · rintro ⟨b, hb, hpos, hmem, hchron, hbt⟩
      obtain ⟨a, ha, hrow⟩ := hrows hb
      cases hrow with
      | replaced _ _ _ _ hseq =>
        rw [hseq] at hmem
        exact absurd hmem (notMem_erase _ _)
      | shared hsrc hrange _ hp ho =>
        rw [← hp, hbt] at hrange
        exact .inl ⟨holds_of_row ha hp.symm ho.symm hpos hsrc hchron hbt, hrange⟩
      | kept hnot hown hseq hp ho =>
        rw [hseq] at hmem
        refine .inr ⟨holds_of_row ha hp.symm ho.symm hpos hmem hchron hbt,
          fun t' ht' hrange heq => ?_⟩
        have horder : a.chronology ∈ c.copiedOrders src p0 p1 := by
          rw [← Cell.chronology_congr hp ho]
          exact mem_copiedOrders_iff.mpr ⟨t', ht', hrange, heq.trans hchron.symm⟩
        rcases own_of_copied hsound hcopy ha (hp ▸ hpos) hmem horder with ⟨hordered, hsrc⟩ | hcopied
        · exact hown hordered hmem hsrc horder
        · exact hnot hcopied
    · rintro (⟨⟨a, ha, hpos, hmem, hchron, hat⟩, hrange⟩ |
        ⟨⟨a, ha, hpos, hmem, hchron, hat⟩, hdistinct⟩)
      · obtain ⟨b, hb, hrow⟩ := hrows' ha
        cases hrow with
        | replaced _ _ hsrc => exact absurd hmem hsrc
        | shared _ _ hseq hp ho =>
          exact holds_of_row hb hp ho hpos (hseq ▸ mem_insert_self _ _) hchron hat
        | kept hnot => exact absurd ⟨hmem, hat ▸ hrange⟩ hnot
      · obtain ⟨b, hb, hrow⟩ := hrows' ha
        cases hrow with
        | replaced _ _ _ horder =>
          obtain ⟨t', ht', hrange, heq⟩ := mem_copiedOrders_iff.mp horder
          exact absurd (heq.trans hchron) (hdistinct t' ht' hrange)
        | shared _ _ hseq hp ho =>
          exact holds_of_row hb hp ho hpos (hseq ▸ mem_insert_self _ _) hchron hat
        | kept _ _ hseq hp ho => exact holds_of_row hb hp ho hpos (hseq ▸ hmem) hchron hat
  · intro seq hne t
    constructor
    · rintro ⟨b, hb, hpos, hmem, hchron, hbt⟩
      obtain ⟨a, ha, hrow⟩ := hrows hb
      cases hrow with
      | replaced _ _ _ _ hseq hsame =>
        obtain ⟨hp, ho⟩ := hsame (ne_empty_of_mem hmem)
        rw [hseq] at hmem
        exact holds_of_row ha hp.symm ho.symm hpos (mem_of_mem_erase hmem) hchron hbt
      | shared _ _ hseq hp ho =>
        rw [hseq] at hmem
        exact holds_of_row ha hp.symm ho.symm hpos (mem_of_mem_insert_of_ne hmem hne) hchron hbt
      | kept _ _ hseq hp ho =>
        exact holds_of_row ha hp.symm ho.symm hpos (hseq ▸ hmem) hchron hbt
    · rintro ⟨a, ha, hpos, hmem, hchron, hat⟩
      obtain ⟨b, hb, hrow⟩ := hrows' ha
      cases hrow with
      | replaced _ _ _ _ hseq hsame =>
        have hmem' : seq ∈ b.seqId := hseq ▸ mem_erase.mpr ⟨hne, hmem⟩
        obtain ⟨hp, ho⟩ := hsame (ne_empty_of_mem hmem')
        exact holds_of_row hb hp ho hpos hmem' hchron hat
      | shared _ _ hseq hp ho =>
        exact holds_of_row hb hp ho hpos (hseq ▸ mem_insert_of_mem hmem) hchron hat
      | kept _ _ hseq hp ho => exact holds_of_row hb hp ho hpos (hseq ▸ hmem) hchron hat

theorem copiesExactly_self (hsound : c.ordered = true → c.Sound)
    (hcopy : c.Copyable src src p0 p1) : CopiesExactly c c src src p0 p1 := by
  refine ⟨fun t => ⟨fun ht => ?_, fun ht => ht.elim And.left And.left⟩, fun _ _ _ => Iff.rfl⟩
  by_cases hcopied : t.order ∈ c.copiedOrders src p0 p1
  · obtain ⟨a, ha, hpos, hmem, hchron, hat⟩ := ht
    rcases own_of_copied hsound hcopy ha hpos hmem (hchron ▸ hcopied) with ⟨-, hnot⟩ | ⟨-, hrange⟩
    · exact absurd hmem hnot
    · exact .inl ⟨⟨a, ha, hpos, hmem, hchron, hat⟩, hat ▸ hrange⟩
  · refine .inr ⟨ht, fun t' ht' hrange heq => hcopied ?_⟩
    exact mem_copiedOrders_iff.mpr ⟨t', ht', hrange, heq⟩

theorem copiesExactly_nothing (h : c.copiedOrders src p0 p1 = []) :
    CopiesExactly c c src dst p0 p1 := by
  have hnone : ∀ t, c.Holds src t → ¬ Copied p0 p1 t.pos := by
    intro t ht hrange
    have hmem : t.order ∈ c.copiedOrders src p0 p1 :=
      mem_copiedOrders_iff.mpr ⟨t, ht, hrange, rfl⟩
    rw [h] at hmem
    cases hmem
  refine ⟨fun t => ⟨fun ht => ?_, fun ht => ?_⟩, fun _ _ _ => Iff.rfl⟩
  · exact .inr ⟨ht, fun t' ht' hrange => absurd hrange (hnone t' ht')⟩
  · exact ht.elim (fun hcopied => absurd hcopied.2 (hnone t hcopied.1)) And.left

/-- **A copy that can be made is exact.** -/
theorem copySequence_exactly {env side} (hplain : c.recurrent = false)
    (hsound : c.ordered = true → c.Sound) (hcopy : c.Copyable src dst p0 p1)
    (h : c.copySequence env src dst p0 p1 side = some (c', .done)) :
    CopiesExactly c c' src dst p0 p1 := by
  rcases copySequence_cases h with ⟨rfl, hwhy⟩ | ⟨-, -, hcopied⟩
  · rcases hwhy rfl with rfl | ⟨-, hnothing⟩
    · exact copiesExactly_self hsound hcopy
    · exact copiesExactly_nothing hnothing
  · exact copiesExactly hplain hsound hcopy hcopied

/-! ## Copies keep the invariant -/

theorem Accounted.seqCp (h : c.Accounted) (hcopied : c.seqCp src dst p0 p1 = some c') :
    c'.Accounted := by
  have hsame := framed_seqCp hcopied
  refine ⟨hsame.recurrent.trans h.plain, hsame.size ▸ h.small, ?_⟩
  have hused : c'.used = c.used := by
    unfold Cache.seqCp at hcopied
    rw [if_neg (by simp [h.plain])] at hcopied
    split at hcopied
    · split at hcopied
      · cases hcopied
        rfl
      · cases hcopied
    · cases hcopied
      rfl
  rw [hused]
  refine h.counted.of_rows hsame.size fun {i a b} ha hb => ?_
  obtain ⟨origin, hrow⟩ := seqCp_rows h.plain hcopied i
  rw [ha, hb] at hrow
  obtain rfl := Option.some.inj hrow
  refine ⟨Iff.rfl, ?_⟩
  dsimp only
  split
  next hshared =>
    exact ⟨fun hempty => absurd hempty (insert_ne_empty _ _),
      fun hempty => absurd hempty (ne_empty_of_mem hshared.1)⟩
  · exact Iff.rfl

theorem CopiesExactly.unique (h : CopiesExactly c c' src dst p0 p1)
    (hunique : ∀ {seq t t'}, c.Holds seq t → c.Holds seq t' → t.order = t'.order → t = t')
    {seq t t'} (ht : c'.Holds seq t) (ht' : c'.Holds seq t') (heq : t.order = t'.order) :
    t = t' := by
  by_cases hseq : seq = dst
  · subst hseq
    rcases (h.destination t).mp ht with ⟨hcopied, hrange⟩ | ⟨hown, hdistinct⟩ <;>
      rcases (h.destination t').mp ht' with ⟨hcopied', hrange'⟩ | ⟨hown', hdistinct'⟩
    · exact hunique hcopied hcopied' heq
    · exact absurd heq (hdistinct' t hcopied hrange)
    · exact absurd heq.symm (hdistinct t' hcopied' hrange')
    · exact hunique hown hown' heq
  · exact hunique ((h.others seq hseq t).mp ht) ((h.others seq hseq t').mp ht') heq

theorem Accounted.copySequence (h : c.Accounted) {env side reply}
    (hcopied : c.copySequence env src dst p0 p1 side = some (c', reply)) :
    c'.Accounted := by
  rcases copySequence_cases hcopied with ⟨rfl, -⟩ | ⟨-, rfl, hdone⟩
  · exact h
  · exact ((preserves_replaceOrders src dst p0 p1).accounted h).seqCp hdone

theorem Sound.copySequence (h : c.Sound) {env : Env} {side : Option String} {reply : Reply}
    (hcopy : c.ordered = true → c.Copyable src dst p0 p1)
    (hcopied : c.copySequence env src dst p0 p1 side = some (c', reply)) : c'.Sound := by
  have haccounted := h.toAccounted.copySequence hcopied
  rcases copySequence_cases hcopied with ⟨rfl, -⟩ | ⟨-, rfl, hdone⟩
  · exact h
  · refine ⟨haccounted, fun ho => ?_⟩
    have ho : c.ordered = true := (framed_copySequence hcopied).ordered ▸ ho
    have hexact := copySequence_exactly h.plain (fun _ => h) (hcopy ho) hcopied
    refine Chronological.of_holds (fun b hmem hne => ?_) fun ht ht' heq =>
      hexact.unique (fun ht ht' heq => h.holds_unique ho ht ht' heq) ht ht' heq
    refine ⟨(haccounted.counted.taken b hmem).mpr hne, ?_⟩
    obtain ⟨i, hi⟩ := mem_iff_getElem?.mp hmem
    have hlt : i < c.cells.length :=
      length_seqCp_replaceOrders hdone ▸ (List.getElem?_eq_some_iff.mp hi).1
    have ha := getElem?_eq_getElem hlt
    have hgiven := (h.chronological ho).given _ (mem_of_getElem? ha)
    cases rowCopied h.plain (hcopy ho) hdone ha hi with
    | replaced _ _ _ _ hseq hsame =>
      rw [(hsame hne).2]
      exact hgiven fun hempty => hne (by rw [hseq, hempty]; rfl)
    | shared hsrc _ _ _ horder =>
      rw [horder]
      exact hgiven (ne_empty_of_mem hsrc)
    | kept _ _ hseq _ horder =>
      rw [horder]
      exact hgiven (hseq ▸ hne)

end Cache

end ExpertStreaming.KvCache
