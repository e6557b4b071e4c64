import ExpertStreaming.KvCache.Positions
import ExpertStreaming.KvCache.Timeline

/-! # The timeline of a cache

The cells of a cache show a timeline: the positions of the tokens of each sequence, by order,
whatever their rows. Every operation on the cells is one of the operations on timelines.
-/
namespace ExpertStreaming.KvCache
open Lib List Option Finset

def Cell.Has (cell : Cell) (seq order pos : Int) : Prop :=
  0 ≤ cell.pos ∧ seq ∈ cell.seqId ∧ cell.chronology = order ∧ cell.pos = pos

instance (cell : Cell) (seq order pos : Int) : Decidable (cell.Has seq order pos) :=
  inferInstanceAs (Decidable (_ ∧ _ ∧ _ ∧ _))

/-- **The cells hold the tokens of a timeline.** -/
structure Shows (cells : List Cell) (tl : Timeline) : Prop where
  has_iff : ∀ {seq order pos : Int},
    (∃ cell ∈ cells, cell.Has seq order pos) ↔ tl seq order = some pos

namespace Shows

variable {cells cells' : List Cell} {tl : Timeline}

theorem congr (h : Shows cells tl)
    (hsame : ∀ seq order pos, (∃ cell ∈ cells', cell.Has seq order pos) ↔
      ∃ cell ∈ cells, cell.Has seq order pos) : Shows cells' tl :=
  ⟨(hsame _ _ _).trans h.has_iff⟩

theorem rewrite {f} (h : Shows cells tl) (hlen : cells'.length = cells.length)
    (hrow : ∀ {i : Nat} {a b : Cell}, cells[i]? = some a → cells'[i]? = some b →
      ∀ seq order pos, b.Has seq order pos ↔
        ∃ old, a.Has seq order old ∧ f seq old = some pos) : Shows cells' (tl.rewrite f) := by
  refine ⟨fun {seq order pos} => ?_⟩
  rw [Timeline.rewrite_eq_some]
  constructor
  · rintro ⟨b, hmem, hb⟩
    obtain ⟨i, hi⟩ := mem_iff_getElem?.mp hmem
    have hlt : i < cells.length := hlen ▸ (List.getElem?_eq_some_iff.mp hi).1
    have ha := getElem?_eq_getElem hlt
    obtain ⟨old, hold, hf⟩ := (hrow ha hi _ _ _).mp hb
    exact ⟨old, h.has_iff.mp ⟨_, mem_of_getElem? ha, hold⟩, hf⟩
  · rintro ⟨old, hold, hf⟩
    obtain ⟨a, hmem, ha⟩ := h.has_iff.mpr hold
    obtain ⟨i, hi⟩ := mem_iff_getElem?.mp hmem
    have hlt : i < cells'.length := hlen.symm ▸ (List.getElem?_eq_some_iff.mp hi).1
    have hb := getElem?_eq_getElem hlt
    exact ⟨_, mem_of_getElem? hb, (hrow hi hb _ _ _).mpr ⟨old, ha, hf⟩⟩

theorem same_rows (h : Shows cells tl) (hlen : cells'.length = cells.length)
    (hrow : ∀ {i : Nat} {a b : Cell}, cells[i]? = some a → cells'[i]? = some b →
      b.pos = a.pos ∧ b.order = a.order ∧ b.seqId = a.seqId) : Shows cells' tl := by
  have hhas : ∀ {i : Nat} {a b : Cell}, cells[i]? = some a → cells'[i]? = some b →
      ∀ seq order pos, b.Has seq order pos ↔ a.Has seq order pos := by
    intro i a b ha hb seq order pos
    obtain ⟨hpos, horder, hseq⟩ := hrow ha hb
    unfold Cell.Has
    rw [hpos, hseq, Cell.chronology_congr hpos horder]
  refine h.congr fun seq order pos => ⟨?_, ?_⟩
  · rintro ⟨b, hmem, hb⟩
    obtain ⟨i, hi⟩ := mem_iff_getElem?.mp hmem
    have hlt : i < cells.length := hlen ▸ (List.getElem?_eq_some_iff.mp hi).1
    have ha := getElem?_eq_getElem hlt
    exact ⟨_, mem_of_getElem? ha, (hhas ha hi _ _ _).mp hb⟩
  · rintro ⟨a, hmem, ha⟩
    obtain ⟨i, hi⟩ := mem_iff_getElem?.mp hmem
    have hlt : i < cells'.length := hlen.symm ▸ (List.getElem?_eq_some_iff.mp hi).1
    have hb := getElem?_eq_getElem hlt
    exact ⟨_, mem_of_getElem? hb, (hhas hi hb _ _ _).mpr ha⟩

theorem nonneg (h : Shows cells tl) {seq order pos} (hpos : tl seq order = some pos) :
    0 ≤ pos := by
  obtain ⟨cell, -, hnonneg, -, -, rfl⟩ := h.has_iff.mpr hpos
  exact hnonneg

theorem order_nonneg (h : Shows cells tl) (hchron : Chronological cells) {seq order pos}
    (hpos : tl seq order = some pos) : 0 ≤ order := by
  obtain ⟨cell, hmem, -, hseq, rfl, -⟩ := h.has_iff.mpr hpos
  have hgiven := hchron.given cell hmem (ne_empty_of_mem hseq)
  unfold Cell.chronology
  rw [if_pos hgiven]
  exact hgiven

theorem set (h : Shows cells tl) {row old new seq order pos} (hrow : cells[row]? = some old)
    (hempty : old.seqId = ∅)
    (hnew : 0 ≤ new.pos ∧ new.seqId = {seq} ∧ new.chronology = order ∧ new.pos = pos)
    (hlater : ∀ {o p : Int}, tl seq o = some p → o < order) :
    Shows (cells.set row new) (tl.put seq order pos) := by
  obtain ⟨hnonneg, hseq, horder, hpos⟩ := hnew
  have hlt := (List.getElem?_eq_some_iff.mp hrow).1
  refine ⟨fun {q o p} => ?_⟩
  unfold Timeline.put
  constructor
  · rintro ⟨b, hmem, hb⟩
    rcases mem_or_eq_of_mem_set hmem with hmem | rfl
    · have hold := h.has_iff.mp ⟨b, hmem, hb⟩
      rw [if_neg]
      · exact hold
      · rintro ⟨rfl, rfl⟩
        exact absurd (hlater hold) (Int.lt_irrefl _)
    · obtain ⟨-, hq, ho, hp⟩ := hb
      rw [hseq, Finset.mem_singleton] at hq
      rw [if_pos ⟨hq, ho.symm.trans horder⟩, ← hpos, hp]
  · intro hput
    split at hput
    next heq =>
      obtain ⟨rfl, rfl⟩ := heq
      cases hput
      refine ⟨new, mem_set hlt new, hnonneg, ?_, horder, hpos⟩
      rw [hseq]
      exact Finset.mem_singleton_self _
    · obtain ⟨a, hmem, ha⟩ := h.has_iff.mpr hput
      obtain ⟨i, hi⟩ := mem_iff_getElem?.mp hmem
      have hne : row ≠ i := by
        rintro rfl
        obtain rfl := some.inj (hrow.symm.trans hi)
        rw [Cell.Has, hempty] at ha
        exact absurd ha.2.1 (notMem_empty _)
      refine ⟨a, mem_of_getElem? (i := i) ?_, ha⟩
      rw [getElem?_set_ne hne]
      exact hi

end Shows

theorem Compacts.shows {cells now tl} (h : Compacts cells now) (hc : Shows cells tl) :
    Shows now tl := by
  induction h with
  | refl => exact hc
  | @move now i j _ hfull hempty hlt ih =>
    have hlen := getD_of_isEmpty_false hfull
    have hget : ∀ row < now.length, (moveCell now i j)[row]? =
        some ((moveCell now i j).getD row {}) := by
      intro row hrow
      have hrow : row < (moveCell now i j).length := by rwa [length_moveCell]
      rw [getD_eq_getElem _ _ hrow, getElem?_eq_getElem hrow]
    refine ih.congr fun seq order pos => ?_
    constructor
    · rintro ⟨b, hmem, hb⟩
      obtain ⟨row, hrow⟩ := mem_iff_getElem?.mp hmem
      have hlt' : row < now.length := by
        have := (List.getElem?_eq_some_iff.mp hrow).1
        rwa [length_moveCell] at this
      obtain rfl := some.inj ((hget row hlt').symm.trans hrow)
      rw [getD_moveCell hlen hlt] at hb
      split at hb
      · exact absurd hb.1 (show ¬ (0 : Int) ≤ -1 by decide)
      split at hb
      · exact ⟨now.getD i {}, mem_of_getElem? (getElem?_of_isEmpty_false hfull), hb⟩
      · refine ⟨now.getD row {}, ?_, hb⟩
        rw [getD_eq_getElem _ _ hlt']
        exact getElem_mem hlt'
    · rintro ⟨a, hmem, ha⟩
      obtain ⟨row, hrow⟩ := mem_iff_getElem?.mp hmem
      have hlt' := (List.getElem?_eq_some_iff.mp hrow).1
      obtain rfl := Cache.getD_of_getElem? hrow
      by_cases hri : row = i
      · subst hri
        refine ⟨_, mem_of_getElem? (hget j (Nat.lt_trans hlt hlen)), ?_⟩
        rw [getD_moveCell hlen hlt, if_neg (Nat.ne_of_lt hlt), if_pos rfl]
        exact ha
      · by_cases hrj : row = j
        · subst hrj
          have hnone := Cell.isEmpty_iff.mp hempty
          rw [Cell.Has, hnone] at ha
          exact absurd ha.2.1 (notMem_empty _)
        · refine ⟨_, mem_of_getElem? (hget row hlt'), ?_⟩
          rw [getD_moveCell hlen hlt, if_neg hri, if_neg hrj]
          exact ha

namespace Cache

variable {c c' : Cache} {tl : Timeline}

theorem holds_iff_has {seq order pos} : (∃ row, c.Holds seq ⟨order, pos, row⟩) ↔
    ∃ cell ∈ c.cells, cell.Has seq order pos := by
  constructor
  · rintro ⟨row, cell, hcell, hhas⟩
    exact ⟨cell, mem_of_getElem? hcell, hhas⟩
  · rintro ⟨cell, hmem, hhas⟩
    obtain ⟨row, hcell⟩ := mem_iff_getElem?.mp hmem
    exact ⟨row, cell, hcell, hhas⟩

theorem shows_iff : Shows c.cells tl ↔ ∀ seq order pos : Int,
    (∃ row, c.Holds seq ⟨order, pos, row⟩) ↔ tl seq order = some pos := by
  simp only [holds_iff_has]
  exact ⟨fun h _ _ _ => h.has_iff, fun h => ⟨h _ _ _⟩⟩

/-! ## Passes -/

theorem shows_seqRm (h : Shows c.cells tl) (hplain : c.recurrent = false) (seq p0 p1 : Int) :
    Shows (c.seqRm seq p0 p1).1.cells (tl.rewrite fun q pos =>
      if History.Concerns seq q ∧ InRange p0 p1 pos then none else some pos) := by
  have hcells : (c.seqRm seq p0 p1).1.cells = (c.sweep (c.rmRow seq p0 p1)).cells := by
    unfold seqRm
    rw [if_neg (by simp [hplain])]
  rw [hcells]
  refine h.rewrite (length_sweep _ _) fun {i a b} ha hb q order pos => ?_
  rw [getElem?_sweep, ha] at hb
  obtain rfl := some.inj hb
  dsimp only
  unfold rmRow
  split
  next hguard =>
    split
    next hleft =>
      -- the row is freed: its sequences are the one removed
      refine ⟨fun hhas => absurd hhas.1 (show ¬ (0 : Int) ≤ -1 by decide), ?_⟩
      rintro ⟨old, ⟨-, hmem, -, rfl⟩, hkept⟩
      have hconcerns : History.Concerns seq q := by
        unfold Cell.without at hleft
        split at hleft
        next hneg => exact .inl hneg
        · by_contra hnot
          have hq : q ∈ a.seqId.erase seq :=
            mem_erase.mpr ⟨fun heq => hnot (.inr heq), hmem⟩
          rw [hleft] at hq
          exact absurd hq (notMem_empty _)
      rw [if_pos ⟨hconcerns, hguard.1⟩] at hkept
      cases hkept
    next hleft =>
    have hseq : ¬ seq < 0 := by
      intro hneg
      unfold Cell.without at hleft
      rw [if_pos hneg] at hleft
      exact hleft rfl
    have hwithout : a.without seq = a.seqId.erase seq := if_neg hseq
    constructor
    · rintro ⟨hpos, hmem, horder, rfl⟩
      rw [hwithout] at hmem
      obtain ⟨hne, hmem⟩ := mem_erase.mp hmem
      refine ⟨a.pos, ⟨hpos, hmem, horder, rfl⟩, if_neg ?_⟩
      rintro ⟨hneg | heq, -⟩
      · exact hseq hneg
      · exact hne heq
    · rintro ⟨old, ⟨hpos, hmem, horder, rfl⟩, hkept⟩
      split at hkept
      · cases hkept
      next hnot =>
      cases hkept
      refine ⟨hpos, ?_, horder, rfl⟩
      rw [hwithout]
      exact mem_erase.mpr ⟨fun heq => hnot ⟨.inr heq, hguard.1⟩, hmem⟩
  next hguard =>
  constructor
  · rintro ⟨hpos, hmem, horder, rfl⟩
    refine ⟨a.pos, ⟨hpos, hmem, horder, rfl⟩, if_neg ?_⟩
    rintro ⟨hneg | rfl, hin⟩
    · exact hguard ⟨hin, .inl hneg⟩
    · exact hguard ⟨hin, .inr hmem⟩
  · rintro ⟨old, hhas, hkept⟩
    split at hkept
    · cases hkept
    · cases hkept
      exact hhas

theorem shows_seqKeep (h : Shows c.cells tl) (seq : Int) :
    Shows (c.seqKeep seq).cells
      (tl.rewrite fun q pos => if q = seq then some pos else none) := by
  show Shows (c.sweep (c.keepRow seq)).cells _
  refine h.rewrite (length_sweep _ _) fun {i a b} ha hb q order pos => ?_
  rw [getElem?_sweep, ha] at hb
  obtain rfl := some.inj hb
  dsimp only
  unfold keepRow
  split
  next hmem =>
    constructor
    · rintro ⟨hpos, hq, horder, rfl⟩
      obtain rfl := Finset.mem_singleton.mp hq
      exact ⟨a.pos, ⟨hpos, hmem, horder, rfl⟩, if_pos rfl⟩
    · rintro ⟨old, ⟨hpos, -, horder, rfl⟩, hkept⟩
      split at hkept
      next heq =>
        cases hkept
        exact ⟨hpos, Finset.mem_singleton.mpr heq, horder, rfl⟩
      · cases hkept
  next hnot =>
  refine ⟨fun hhas => absurd hhas.1 (show ¬ (0 : Int) ≤ -1 by decide), ?_⟩
  rintro ⟨old, ⟨-, hq, -, -⟩, hkept⟩
  split at hkept
  next heq => exact absurd (heq ▸ hq) hnot
  · cases hkept

theorem shows_clear (c : Cache) : Shows c.clear.cells fun _ _ => none := by
  refine ⟨⟨?_, nofun⟩⟩
  rintro ⟨cell, hmem, hpos, -⟩
  obtain ⟨i, hi⟩ := mem_iff_getElem?.mp hmem
  rw [(cell_clear hi).1] at hpos
  exact absurd hpos (by decide)

theorem shows_update {g status} (h : Shows c.cells tl) (hupdate : c.update g = some (c', status)) :
    Shows c'.cells tl := by
  rcases update_cases hupdate with ⟨rfl, -⟩ | ⟨shifted, copied, hshift, -, hcopied, hdefrag, -⟩
  · exact h
  have hshifted : Shows shifted.cells tl := by
    rcases hshift with rfl | rfl
    · exact h
    · refine h.same_rows (length_map _) fun {i a b} ha hb => ?_
      rw [show (c.applyShift g).cells = c.cells.map fun cell => { cell with delta := 0 } from rfl,
        getElem?_map, ha] at hb
      obtain rfl := some.inj hb
      exact ⟨rfl, rfl, rfl⟩
  have hsettled : Shows copied.cells tl := by
    unfold settleCopies applyCopies at hcopied
    split at hcopied
    · split at hcopied
      · cases hcopied
        refine hshifted.same_rows (by simp) fun {i a b} ha hb => ?_
        simp only [getElem?_mapIdx, ha, map_some, some.injEq] at hb
        subst hb
        exact ⟨rfl, rfl, rfl⟩
      · cases hcopied
    · cases hcopied
      exact hshifted
  unfold settleDefrag at hdefrag
  split at hdefrag
  · obtain ⟨moved, hmoved, rfl⟩ := map_eq_some_iff.mp hdefrag
    exact (defragInternal_compacts hmoved).shows hsettled
  · cases hdefrag
    exact hsettled

/-! ## Copies and changes of positions -/

theorem CopiesExactly.shows {src dst p0 p1} (hcopy : CopiesExactly c c' src dst p0 p1)
    (h : Shows c.cells tl) : Shows c'.cells (tl.copy src dst (Copied p0 p1)) := by
  rw [shows_iff] at h ⊢
  intro seq order pos
  by_cases hseq : seq = dst
  · subst hseq
    rw [Timeline.copy_eq_some]
    simp only [hcopy.destination, exists_or, exists_and_right, h]
    refine or_congr Iff.rfl (and_congr Iff.rfl ⟨?_, ?_⟩)
    · intro hnone old hold hcopied
      obtain ⟨row, hrow⟩ := (h _ _ _).mpr hold
      exact hnone _ hrow hcopied rfl
    · rintro hnone ⟨order', pos', row⟩ hrow hcopied rfl
      exact hnone pos' ((h _ _ _).mp ⟨row, hrow⟩) hcopied
  · have hother : tl.copy src dst (Copied p0 p1) seq order = tl seq order := if_neg hseq
    simp only [hcopy.others seq hseq, hother, h]

theorem stores_iff_holds (hchron : Chronological c.cells) {seq t} :
    c.Stores seq t ↔ c.Holds seq t := by
  refine exists_congr fun cell => and_congr_right fun hcell => and_congr_right fun hpos =>
    and_congr_right fun hmem => ?_
  have hgiven := hchron.given cell (mem_of_getElem? hcell) (ne_empty_of_mem hmem)
  rw [show cell.chronology = cell.order from if_pos hgiven]

theorem Changed.shows {t} (hchanged : Changed t c c') (hchron : Chronological c.cells)
    (hchron' : Chronological c'.cells) (h : Shows c.cells tl) :
    Shows c'.cells (tl.rewrite fun q pos =>
      if History.Concerns t.seq q then t.position pos else some pos) := by
  rw [shows_iff] at h ⊢
  intro seq order pos
  rw [Timeline.rewrite_eq_some]
  simp only [← stores_iff_holds hchron, ← stores_iff_holds hchron'] at h ⊢
  by_cases hseq : History.Concerns t.seq seq
  · obtain ⟨origin, hmoved⟩ := hchanged.moved hseq
    simp only [if_pos hseq]
    constructor
    · rintro ⟨row, hrow⟩
      obtain ⟨old, hold, hposition⟩ := hmoved.only hrow
      exact ⟨old, (h _ _ _).mp ⟨_, hold⟩, hposition⟩
    · rintro ⟨old, hold, hposition⟩
      obtain ⟨row, hrow⟩ := (h _ _ _).mpr hold
      obtain ⟨row', -, hrow'⟩ := hmoved.kept hrow hposition
      exact ⟨row', hrow'⟩
  · simp only [if_neg hseq, (hchanged.others hseq).tokens, h, some.injEq, exists_eq_right]

/-! ## Decoding -/

theorem Sound.latest (hsound : c.Sound) (ho : c.ordered = true) (h : Shows c.cells tl)
    (seq : Int) : tl.Latest seq (c.lastOrder seq) := by
  have hchron := hsound.chronological ho
  have hle : ∀ {order pos : Int}, tl seq order = some pos → order ≤ c.lastOrder seq := by
    intro order pos hpos
    obtain ⟨cell, hmem, -, hseq, rfl, -⟩ := h.has_iff.mpr hpos
    rw [show cell.chronology = cell.order from
      if_pos (hchron.given cell hmem (ne_empty_of_mem hseq))]
    exact hsound.le_lastOrder ho hmem hseq
  rcases foldl_max_mem (((c.cells.take c.occupiedEnd).filter fun cell =>
      0 ≤ cell.pos ∧ seq ∈ cell.seqId).map (·.chronology)) (-1) with hstart | hmem
  · refine .inl ⟨hstart, fun order => ?_⟩
    cases hpos : tl seq order with
    | none => rfl
    | some pos =>
      have hnonneg := h.order_nonneg hchron hpos
      have := hle hpos
      have hlast : c.lastOrder seq = -1 := hstart
      omega
  · obtain ⟨cell, hcell, horder⟩ := mem_map.mp hmem
    rw [mem_filter, decide_eq_true_iff] at hcell
    have hpos : tl seq (c.lastOrder seq) = some cell.pos :=
      h.has_iff.mp ⟨cell, mem_of_mem_take hcell.1, hcell.2.1, hcell.2.2, horder, rfl⟩
    exact .inr ⟨h.order_nonneg hchron hpos, ⟨_, hpos⟩, hle⟩

/-- **A batch placed on free rows is put behind the last tokens.** -/
theorem shows_placeBatch {last row used batch cells} (hcounted : Counted cells used)
    (h : Shows cells tl) (hlast : ∀ seq, tl.Latest seq (last seq))
    (hvalid : ∀ token ∈ batch, 0 ≤ token.pos ∧ token.seqs.length = 1)
    (hfits : row + batch.length ≤ cells.length)
    (hfree : ∀ i < batch.length, (cells.getD (row + i) {}).pos < 0) :
    ∃ tl', tl.Appends batch tl' ∧ Shows (placeBatch true last row batch cells) tl' := by
  induction batch generalizing last row used cells tl with
  | nil => exact ⟨tl, .nil tl, h⟩
  | cons token rest ih =>
    obtain ⟨hpos, hone⟩ := hvalid token (by simp)
    obtain ⟨seq, hseqs⟩ := length_eq_one_iff.mp hone
    obtain ⟨placed, hplaced, hrow, hempty, hcseq, hcounted', hfits', hfree'⟩ :=
      place_first true (tokenOrder true last token) hcounted hpos (by simp [hseqs]) hfits hfree
    have horder : tokenOrder true last token = nextOrder (last seq) token.pos := by
      unfold tokenOrder
      rw [if_pos rfl, hseqs]
      rfl
    have hnonneg := (hlast seq).next_nonneg hpos
    have hcpos : placed.pos = token.pos := hplaced ▸ rfl
    have hcorder : placed.order = nextOrder (last seq) token.pos := hplaced ▸ horder
    replace hcseq : placed.seqId = {seq} := by
      rw [hcseq, hseqs]
      rfl
    have hcchron : placed.chronology = nextOrder (last seq) token.pos := by
      unfold Cell.chronology
      rw [hcorder, if_pos hnonneg]
    have hshows : Shows (cells.set row placed)
        (tl.put seq (nextOrder (last seq) token.pos) token.pos) :=
      h.set hrow hempty ⟨hcpos ▸ hpos, hcseq, hcchron, hcpos⟩ (hlast seq).lt_next
    have hlast' : ∀ q, (tl.put seq (nextOrder (last seq) token.pos) token.pos).Latest q
        (Function.update last seq (nextOrder (last seq) token.pos) q) := by
      intro q
      by_cases hq : q = seq
      · subst hq
        rw [Function.update_self]
        exact (hlast q).put hpos
      · rw [Function.update_of_ne hq]
        exact (hlast q).put_other hq
    obtain ⟨tl', happends, hdone⟩ := ih hcounted' hshows hlast'
      (fun token hmem => hvalid token (mem_cons_of_mem _ hmem))
      hfits' hfree'
    refine ⟨tl', .cons hseqs (hlast seq) (hlast seq).lt_next happends, ?_⟩
    unfold placeBatch
    dsimp only
    rw [hplaced, horder, hseqs]
    exact hdone

theorem decodeSlot_placed {env batch} (hplain : c.recurrent = false)
    (h : c.decodeSlot env batch = some (c', .done)) :
    ∃ settled status head, c.update env.graphs = some (settled, status) ∧
      head + batch.length ≤ settled.cells.length ∧
      (∀ i < batch.length, (settled.cells.getD (head + i) {}).pos < 0) ∧
      (settled.ordered = true → ∀ token ∈ batch, token.seqs.length = 1) ∧
      c'.cells = placeBatch settled.ordered settled.lastOrder head batch settled.cells := by
  rcases decodeSlot_cases hplain h with
    ⟨-, hnot⟩ | ⟨settled, status, hsettled, ⟨-, hnot⟩ | ⟨start, n, rfl, hdone⟩⟩
  · exact absurd rfl hnot
  · exact absurd rfl hnot
  have hplain' : ({ settled with head := start } : Cache).recurrent = false :=
    (framed_update hsettled).recurrent.trans hplain
  have hfound := (hdone rfl).1
  rcases findSlot_cases hplain' batch with ⟨head, heq⟩ | ⟨head, hfits, hfree, hsingle, heq⟩
  · rw [heq] at hfound
    cases hfound
  · exact ⟨settled, status, head, hsettled, hfits, hfree, hsingle, by rw [heq]; rfl⟩

/-- **What decoding appends to the timeline of an ordered cache.** -/
theorem shows_decodeSlot {env batch} (hsound : c.Sound) (ho : c.ordered = true)
    (h : Shows c.cells tl) (hpos : ∀ token ∈ batch, 0 ≤ token.pos)
    (hslot : c.decodeSlot env batch = some (c', .done)) :
    ∃ tl', tl.Appends batch tl' ∧ Shows c'.cells tl' := by
  obtain ⟨settled, status, head, hsettled, hfits, hfree, hsingle, hcells⟩ :=
    decodeSlot_placed hsound.plain hslot
  have hordered : settled.ordered = true := (framed_update hsettled).ordered.trans ho
  have hsound' := (preserves_update hsettled).sound hsound
  have hshows := shows_update h hsettled
  rw [hcells, hordered]
  exact shows_placeBatch hsound'.counted hshows (hsound'.latest hordered hshows)
    (fun token hmem => ⟨hpos token hmem, hsingle hordered token hmem⟩) hfits hfree

end Cache

end ExpertStreaming.KvCache
