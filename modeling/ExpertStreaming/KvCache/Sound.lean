import ExpertStreaming.KvCache.Tokens

/-! # Every call keeps the invariants

An accounted cache counts its tokens; a sound one is chronological too, if it is ordered. The
calls keep a cache sound as long as decoded tokens have positions and sequences and positions
are divided by positive numbers. Copying a sequence is treated where copies are.
-/
namespace ExpertStreaming.KvCache
open Lib

/-- **A cache that is not recurrent counts its tokens.** -/
structure Cache.Accounted (c : Cache) : Prop where
  plain : c.recurrent = false
  small : c.cells.length ≤ u32Max
  counted : Counted c.cells c.used

instance (c : Cache) : Decidable c.Accounted :=
  decidable_of_iff (c.recurrent = false ∧ c.cells.length ≤ u32Max ∧
      (∀ cell ∈ c.cells, 0 ≤ cell.pos ↔ cell.seqId ≠ ∅) ∧
      c.used = c.cells.countP Cell.occupied)
    ⟨fun ⟨hplain, hsmall, htaken, hcounted⟩ => ⟨hplain, hsmall, htaken, hcounted⟩,
      fun h => ⟨h.plain, h.small, h.counted.taken, h.counted.counted⟩⟩

/-- **The invariant of a cache that is not recurrent.** -/
structure Cache.Sound (c : Cache) : Prop extends Cache.Accounted c where
  chronological : c.ordered = true → Chronological c.cells

namespace Cache

variable {c : Cache}

/-- What every operation but copying does to the invariants. -/
structure Preserves (c c' : Cache) : Prop where
  accounted : c.Accounted → c'.Accounted
  sound : c.Sound → c'.Sound

namespace Preserves

variable {c' c'' : Cache}

theorem refl (c : Cache) : Preserves c c := ⟨id, id⟩

theorem trans (h : Preserves c c') (h' : Preserves c' c'') : Preserves c c'' :=
  ⟨fun hc => h'.accounted (h.accounted hc), fun hc => h'.sound (h.sound hc)⟩

theorem congr (hrecurrent : c'.recurrent = c.recurrent) (hordered : c'.ordered = c.ordered)
    (hcells : c'.cells = c.cells) (hused : c'.used = c.used) : Preserves c c' := by
  have haccounted : c.Accounted → c'.Accounted := by
    rintro ⟨hplain, hsmall, hcounted⟩
    refine ⟨hrecurrent.trans hplain, ?_, ?_⟩
    · rw [hcells]
      exact hsmall
    · rw [hcells, hused]
      exact hcounted
  refine ⟨haccounted, fun h => ⟨haccounted h.toAccounted, fun ho => ?_⟩⟩
  rw [hcells]
  exact h.chronological (hordered ▸ ho)

theorem of_cells (hkind : c'.recurrent = c.recurrent ∧ c'.ordered = c.ordered)
    (hlen : c'.cells.length = c.cells.length)
    (hcounted : c.Accounted → Counted c'.cells c'.used)
    (hchron : c.Accounted → Chronological c.cells → Chronological c'.cells) : Preserves c c' := by
  have haccounted : c.Accounted → c'.Accounted := fun h =>
    ⟨hkind.1.trans h.plain, hlen ▸ h.small, hcounted h⟩
  exact ⟨haccounted, fun h => ⟨haccounted h.toAccounted, fun ho =>
    hchron h.toAccounted (h.chronological (hkind.2 ▸ ho))⟩⟩

end Preserves

/-! ## Passes -/

namespace Swept

variable {cell : Cell}

theorem Keeps.same (h : 0 ≤ cell.pos ↔ cell.seqId ≠ ∅) : (⟨cell, false, false⟩ : Swept).Keeps cell :=
  ⟨h, ⟨fun hc => (nomatch hc), fun hc => absurd hc.2 hc.1⟩, Finset.Subset.refl _, fun _ => rfl⟩

theorem Keeps.fewer (h : 0 ≤ cell.pos ↔ cell.seqId ≠ ∅) {left} (hsub : left ⊆ cell.seqId)
    (hne : left ≠ ∅) :
    (⟨{ cell with seqId := left }, false, false⟩ : Swept).Keeps cell := by
  have hold : cell.seqId ≠ ∅ := fun hempty => hne (Finset.subset_empty.mp (hempty ▸ hsub))
  refine ⟨⟨fun _ => hne, fun _ => h.mpr hold⟩, ?_, hsub, fun _ => rfl⟩
  exact ⟨fun hc => (by cases hc), fun hc => absurd hc.2 hne⟩

theorem Keeps.freed {r : Swept} (hpos : r.cell.pos = -1) (hseq : r.cell.seqId = ∅)
    (hcounted : r.counted = true ↔ cell.seqId ≠ ∅) : r.Keeps cell := by
  refine ⟨?_, ?_, ?_, fun hne => absurd hseq hne⟩
  · rw [hpos, hseq]
    exact ⟨fun h => absurd h (by decide), fun h => absurd rfl h⟩
  · rw [hcounted]
    exact ⟨fun hne => ⟨hne, hseq⟩, fun h => h.1⟩
  · rw [hseq]
    exact Finset.empty_subset _

end Swept

variable {i : Nat} {cell : Cell} {seq p0 p1 delta : Int} {c' : Cache}

theorem Accounted.taken (h : c.Accounted)
    (hcell : c.cells[i]? = some cell) : 0 ≤ cell.pos ↔ cell.seqId ≠ ∅ :=
  h.counted.taken cell (List.mem_of_getElem? hcell)

theorem preserves_sweep {f}
    (hrow : ∀ i cell, (0 ≤ cell.pos ↔ cell.seqId ≠ ∅) → (f i cell).Keeps cell) :
    Preserves c (c.sweep f) :=
  .of_cells ⟨rfl, rfl⟩ (length_sweep c f)
    (fun h => h.counted.sweep fun i cell hcell => hrow i cell (h.taken hcell))
    (fun h hc => hc.sweep fun i cell hcell => hrow i cell (h.taken hcell))

theorem keeps_freeRow (h : 0 ≤ cell.pos ↔ cell.seqId ≠ ∅) :
    (⟨c.freeRow i cell, true, decide (0 ≤ cell.pos)⟩ : Swept).Keeps cell :=
  .freed rfl rfl (by rw [decide_eq_true_iff]; exact h)

theorem rmRow_keeps
    (h : 0 ≤ cell.pos ↔ cell.seqId ≠ ∅) : (c.rmRow seq p0 p1 i cell).Keeps cell := by
  unfold rmRow
  split
  · split
    · exact keeps_freeRow h
    next hleft => exact .fewer h (cell.without_subset seq) hleft
  · exact .same h

theorem keepRow_keeps (h : 0 ≤ cell.pos ↔ cell.seqId ≠ ∅) :
    (c.keepRow seq i cell).Keeps cell := by
  unfold keepRow
  split
  next hmem => exact .fewer h (Finset.singleton_subset_iff.mpr hmem) (Finset.singleton_ne_empty _)
  · exact keeps_freeRow h

theorem replaceRow_keeps {orders : List Int} {src dst : Int}
    (h : 0 ≤ cell.pos ↔ cell.seqId ≠ ∅) : (replaceRow orders src dst i cell).Keeps cell := by
  unfold replaceRow
  split
  next hguard =>
    dsimp only
    split
    · exact .freed rfl rfl ⟨fun _ => Finset.ne_empty_of_mem hguard.1, fun _ => rfl⟩
    next hleft => exact .fewer h (Finset.erase_subset _ _) hleft
  · exact .same h

theorem preserves_seqRm (seq p0 p1 : Int) : Preserves c (c.seqRm seq p0 p1).1 := by
  unfold Cache.seqRm
  split
  · exact .refl c
  · exact (preserves_sweep fun i cell h => rmRow_keeps h).trans (.congr rfl rfl rfl rfl)

theorem preserves_seqKeep (seq : Int) : Preserves c (c.seqKeep seq) :=
  (preserves_sweep fun _ _ h => keepRow_keeps h).trans (.congr rfl rfl rfl rfl)

theorem preserves_replaceOrders (src dst p0 p1 : Int) :
    Preserves c (c.replaceOrders src dst p0 p1) := by
  unfold Cache.replaceOrders
  split
  · exact preserves_sweep fun i cell h => replaceRow_keeps h
  · exact .refl c

/-! ## Position changes of a plain cache -/

theorem transforms_spec (h : c.transforms seq p0 p1 cell = true) : InRange p0 p1 cell.pos := by
  unfold transforms at h
  rw [Bool.and_eq_true, decide_eq_true_iff] at h
  exact h.2

theorem addRow_keeps
    (h : 0 ≤ cell.pos ↔ cell.seqId ≠ ∅) : (c.addRow seq p0 p1 delta i cell).Keeps cell := by
  unfold addRow
  split
  next hrow =>
    have hne := h.mp (transforms_spec hrow).nonneg
    split
    · exact .freed rfl rfl (by simp [Cell.isEmpty])
    next hpos =>
      refine ⟨⟨fun _ => hne, fun _ => Int.not_lt.mp hpos⟩, ?_, Finset.Subset.refl _, fun _ => rfl⟩
      exact ⟨fun hc => (by cases hc), fun hc => absurd hc.2 hne⟩
  · exact .same h

theorem seqAdd_cases (hplain : c.recurrent = false)
    (hadd : c.seqAdd seq p0 p1 delta = some c') : c' = c ∨ ∃ shift head,
      c' = { c.sweep (c.addRow seq p0 p1 delta) with hasShift := shift, head := head } := by
  unfold Cache.seqAdd at hadd
  split at hadd
  · cases hadd
  split at hadd
  · cases hadd
    exact .inl rfl
  rw [if_neg (by simp [hplain])] at hadd
  cases hadd
  exact .inr ⟨_, _, rfl⟩

theorem preserves_seqAdd (hplain : c.recurrent = false)
    (hadd : c.seqAdd seq p0 p1 delta = some c') : Preserves c c' := by
  rcases seqAdd_cases hplain hadd with rfl | ⟨shift, head, rfl⟩
  · exact .refl _
  · exact (preserves_sweep fun i cell h => addRow_keeps h).trans (.congr rfl rfl rfl rfl)

theorem seqDiv_cases {d} (hplain : c.recurrent = false) (hdiv : c.seqDiv seq p0 p1 d = some c') :
    c' = c ∨ ∃ shift, c' = { c with
      cells := c.cells.map fun cell =>
        if c.transforms seq p0 p1 cell then
          { cell with pos := cell.pos.tdiv d, delta := cell.delta + (cell.pos.tdiv d - cell.pos) }
        else cell
      hasShift := shift } := by
  unfold Cache.seqDiv at hdiv
  split at hdiv
  · cases hdiv
  split at hdiv
  · cases hdiv
    exact .inl rfl
  split at hdiv
  · cases hdiv
  rw [if_neg (by simp [hplain])] at hdiv
  cases hdiv
  exact .inr ⟨_, rfl⟩

theorem preserves_seqDiv {d} (hplain : c.recurrent = false) (hd : 0 < d)
    (hdiv : c.seqDiv seq p0 p1 d = some c') : Preserves c c' := by
  rcases seqDiv_cases hplain hdiv with rfl | ⟨shift, rfl⟩
  · exact .refl _
  · refine .of_cells ⟨rfl, rfl⟩ (List.length_map _) (fun h => h.counted.map fun cell _ => ?_)
      fun _ hc => hc.map fun cell => ?_
    · split
      next hrow =>
        have hpos := (transforms_spec hrow).nonneg
        exact ⟨⟨fun _ => hpos, fun _ => Int.tdiv_nonneg hpos (Int.le_of_lt hd)⟩, Iff.rfl⟩
      · exact ⟨Iff.rfl, Iff.rfl⟩
    · split <;> exact ⟨Finset.Subset.refl _, rfl⟩

theorem cell_clear (h : c.clear.cells[i]? = some cell) :
    cell.pos = -1 ∧ cell.seqId = ∅ := by
  have hcells : c.clear.cells = c.cells.mapIdx fun i cell =>
    { cell with
      pos := -1, order := -1, delta := if c.ordered then 0 else cell.delta, src := i,
      seqId := ∅ } := rfl
  rw [hcells, List.getElem?_mapIdx, Option.map_eq_some_iff] at h
  obtain ⟨old, -, rfl⟩ := h
  exact ⟨rfl, rfl⟩

theorem Sound.of_empty (hplain : c.recurrent = false) (hsmall : c.cells.length ≤ u32Max)
    (hused : c.used = 0) (h : ∀ cell ∈ c.cells, cell.pos = -1 ∧ cell.seqId = ∅) : c.Sound := by
  refine ⟨⟨hplain, hsmall, fun cell hmem => ?_, ?_⟩, fun _ => ⟨fun cell hmem hne => ?_, ?_⟩⟩
  · simp [h cell hmem]
  · rw [hused]
    refine (List.countP_eq_zero.mpr fun cell hmem => ?_).symm
    rw [Cell.occupied_iff]
    exact fun hocc => hocc.2 (h cell hmem).2
  · exact absurd (h cell hmem).2 hne
  · intro i j a b seq hi _ _ ha _
    rw [(h a (List.mem_of_getElem? hi)).2] at ha
    exact absurd ha (Finset.notMem_empty _)

theorem preserves_clear : Preserves c c.clear := by
  have hsound : c.Accounted → c.clear.Sound := fun h => by
    refine .of_empty h.plain (by simpa [Cache.clear] using h.small) rfl fun cell hmem => ?_
    obtain ⟨i, hi⟩ := List.mem_iff_getElem?.mp hmem
    exact cell_clear hi
  exact ⟨fun h => (hsound h).toAccounted, fun h => hsound h.toAccounted⟩

/-! ## Updates -/

theorem preserves_applyShift (g : Graphs) : Preserves c (c.applyShift g) :=
  .of_cells ⟨rfl, rfl⟩ (List.length_map _) (fun h => h.counted.map fun _ _ => ⟨Iff.rfl, Iff.rfl⟩)
    fun _ hc => hc.map fun _ => ⟨Finset.Subset.refl _, rfl⟩

theorem preserves_settleCopies (hcopies : c.settleCopies = some c') :
    Preserves c c' := by
  unfold Cache.settleCopies applyCopies at hcopies
  split at hcopies
  · split at hcopies
    · cases hcopies
      -- only the sources change, which neither count nor order
      refine .of_cells ⟨rfl, rfl⟩ (by simp) (fun h => ?_) fun _ hc => hc.of_rows fun hi _ => ?_
      · refine h.counted.of_rows (by simp) fun ha hb => ?_
        simp only [List.getElem?_mapIdx, ha, Option.map_some, Option.some.injEq] at hb
        simp [← hb]
      · simp only [List.getElem?_mapIdx, Option.map_eq_some_iff] at hi
        obtain ⟨a, ha, rfl⟩ := hi
        exact ⟨a, ha, Finset.Subset.refl _, rfl⟩
    · cases hcopies
  · cases hcopies
    exact .refl c

theorem preserves_settleDefrag {g} (hdefrag : c.settleDefrag g = some c') :
    Preserves c c' := by
  have hkind := framed_settleDefrag hdefrag
  unfold Cache.settleDefrag at hdefrag
  split at hdefrag
  · obtain ⟨moved, hmoved, rfl⟩ := Option.map_eq_some_iff.mp hdefrag
    have hcompacts := defragInternal_compacts hmoved
    have hused : moved.used = c.used := by
      unfold defragInternal at hmoved
      dsimp only at hmoved
      obtain ⟨d, -, rfl⟩ := Option.map_eq_some_iff.mp hmoved
      split <;> rfl
    refine .of_cells ⟨hkind.recurrent, hkind.ordered⟩ hkind.size (fun h => ?_)
      fun _ hc => hcompacts.chronological hc
    show Counted moved.cells moved.used
    rw [hused]
    exact hcompacts.counted h.counted
  · cases hdefrag
    exact .refl c

theorem preserves_update {g status} (hupdate : c.update g = some (c', status)) :
    Preserves c c' := by
  rcases update_cases hupdate with ⟨rfl, -⟩ | ⟨shifted, copied, hshift, -, hcopied, hdefrag, -⟩
  · exact .refl _
  · refine Preserves.trans ?_ ((preserves_settleCopies hcopied).trans
      (preserves_settleDefrag hdefrag))
    rcases hshift with rfl | rfl
    · exact .refl _
    · exact preserves_applyShift g

end Cache

end ExpertStreaming.KvCache
