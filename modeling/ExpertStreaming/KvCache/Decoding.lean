import ExpertStreaming.KvCache.Sound
import ExpertStreaming.Lib.Fold

/-! # Decoding keeps the invariants

The rows given to a batch were free, so each token adds one to the count. In an ordered
cache a token's order is above every order its sequence has: the scan for the last order
stops early, but not before it has seen every occupied row.
-/
namespace ExpertStreaming.KvCache
open Lib List

theorem lt_scanOccupied {cells remaining i cell} (hcount : cells.countP Cell.occupied ≤ remaining)
    (hi : cells[i]? = some cell) (hocc : cell.occupied = true) :
    i < Cache.scanOccupied remaining cells := by
  induction cells generalizing remaining i with
  | nil => cases hi
  | cons first rest ih =>
    have hpos : 0 < (first :: rest).countP Cell.occupied :=
      countP_pos_iff.mpr ⟨cell, mem_of_getElem? hi, hocc⟩
    obtain ⟨r, rfl⟩ : ∃ r, remaining = r + 1 := ⟨remaining - 1, by omega⟩
    unfold Cache.scanOccupied
    cases i with
    | zero => omega
    | succ i =>
      rw [countP_cons] at hcount
      have hrest : i < Cache.scanOccupied (if first.occupied then r else r + 1) rest := by
        refine ih ?_ hi
        split at hcount
        next hfirst =>
          rw [if_pos hfirst]
          omega
        next hfirst =>
          rw [if_neg hfirst]
          omega
      omega

namespace Cache

variable {c : Cache}

theorem Accounted.scanned (h : c.Accounted) {i : Nat} {cell : Cell} (hi : c.cells[i]? = some cell)
    (hne : cell.seqId ≠ ∅) : (c.cells.take c.occupiedEnd)[i]? = some cell := by
  rw [getElem?_take_of_lt, hi]
  unfold occupiedEnd
  split
  · exact lt_scanOccupied (Nat.le_of_eq h.counted.counted.symm) hi
      ((h.counted.occupied_iff (mem_of_getElem? hi)).mpr hne)
  · exact (List.getElem?_eq_some_iff.mp hi).1

theorem Sound.le_lastOrder (h : c.Sound) (ho : c.ordered = true) {cell} (hmem : cell ∈ c.cells)
    {seq} (hseq : seq ∈ cell.seqId) :
    cell.order ≤ c.lastOrder seq := by
  obtain ⟨i, hi⟩ := mem_iff_getElem?.mp hmem
  have hne := Finset.ne_empty_of_mem hseq
  have horder := (h.chronological ho).given cell hmem hne
  have htake := mem_of_getElem? (h.toAccounted.scanned hi hne)
  have hchron : cell.chronology = cell.order := if_pos horder
  unfold lastOrder
  refine le_foldl_max (.inl (mem_map.mpr ⟨cell, ?_, hchron⟩))
  rw [mem_filter, decide_eq_true_iff]
  exact ⟨htake, (h.taken hi).mpr hne, hseq⟩

/-! ## Placing a batch -/

variable {cells : List Cell} {row : Nat} {batch : List BatchToken}

theorem empty_of_free {used} (h : Counted cells used) (hlt : row < cells.length)
    (hfree : (cells.getD row {}).pos < 0) :
    cells[row]? = some (cells.getD row {}) ∧ (cells.getD row {}).seqId = ∅ := by
  have hrow : cells[row]? = some (cells.getD row {}) := by
    rw [getD_eq_getElem _ _ hlt, getElem?_eq_getElem hlt]
  refine ⟨hrow, ?_⟩
  by_contra hne
  have := (h.taken _ (mem_of_getElem? hrow)).mpr hne
  omega

theorem free_behind {n cell} (hfree : ∀ i < n + 1, (cells.getD (row + i) {}).pos < 0) :
    ∀ i < n, ((cells.set row cell).getD (row + 1 + i) {}).pos < 0 := by
  intro i hi
  rw [getD_eq_getElem?_getD, getElem?_set_ne (by omega), ← getD_eq_getElem?_getD,
    Nat.add_assoc, Nat.add_comm 1 i]
  exact hfree (i + 1) (by omega)

/-- **The first token of a batch takes a free row**, with the rows for the rest still free. -/
theorem place_first (ordered : Bool) (order : Int) {token used n} (h : Counted cells used)
    (hpos : 0 ≤ token.pos) (hseqs : token.seqs ≠ []) (hfits : row + (n + 1) ≤ cells.length)
    (hfree : ∀ i < n + 1, (cells.getD (row + i) {}).pos < 0) :
    ∃ placed, placeToken ordered order token (cells.getD row {}) = placed ∧
      cells[row]? = some (cells.getD row {}) ∧ (cells.getD row {}).seqId = ∅ ∧
      placed.seqId = token.seqs.toFinset ∧ Counted (cells.set row placed) (used + 1) ∧
      row + 1 + n ≤ (cells.set row placed).length ∧
      ∀ i < n, ((cells.set row placed).getD (row + 1 + i) {}).pos < 0 := by
  have hfirst : (cells.getD row {}).pos < 0 := hfree 0 (by omega)
  obtain ⟨hrow, hempty⟩ := empty_of_free h (by omega) hfirst
  have hplaced : (placeToken ordered order token (cells.getD row {})).seqId =
      token.seqs.toFinset := by
    show (cells.getD row {}).seqId ∪ token.seqs.toFinset = _
    rw [hempty, Finset.empty_union]
  have hfull : (placeToken ordered order token (cells.getD row {})).seqId ≠ ∅ := by
    rw [hplaced]
    obtain ⟨seq, hseq⟩ := exists_mem_of_ne_nil _ hseqs
    exact Finset.ne_empty_of_mem (mem_toFinset.mpr hseq)
  refine ⟨_, rfl, hrow, hempty, hplaced, h.set hrow ⟨fun _ => hfull, fun _ => hpos⟩ ?_, ?_,
    free_behind hfree⟩
  · rw [if_pos hempty, if_neg hfull]
  · rw [length_set]
    omega

theorem placeBatch_counted {ordered last used} (h : Counted cells used)
    (hvalid : ∀ token ∈ batch, 0 ≤ token.pos ∧ token.seqs ≠ [])
    (hfits : row + batch.length ≤ cells.length)
    (hfree : ∀ i < batch.length, (cells.getD (row + i) {}).pos < 0) :
    Counted (placeBatch ordered last row batch cells) (used + batch.length) := by
  induction batch generalizing last row used cells with
  | nil => exact h
  | cons token rest ih =>
    obtain ⟨hpos, hseqs⟩ := hvalid token (by simp)
    obtain ⟨placed, hplaced, -, -, -, hcounted, hfits', hfree'⟩ :=
      place_first ordered (tokenOrder ordered last token) h hpos hseqs hfits hfree
    unfold placeBatch
    dsimp only
    rw [hplaced, length_cons, Nat.add_comm rest.length, ← Nat.add_assoc]
    exact ih hcounted (fun token hmem => hvalid token (mem_cons_of_mem _ hmem)) hfits' hfree'

theorem placeBatch_chronological {last used} (hcounted : Counted cells used)
    (h : Chronological cells) (hvalid : ∀ token ∈ batch, 0 ≤ token.pos ∧ token.seqs.length = 1)
    (hfits : row + batch.length ≤ cells.length)
    (hfree : ∀ i < batch.length, (cells.getD (row + i) {}).pos < 0)
    (hlast : ∀ cell ∈ cells, ∀ seq ∈ cell.seqId, cell.order ≤ last seq) :
    Chronological (placeBatch true last row batch cells) := by
  induction batch generalizing last row used cells with
  | nil => exact h
  | cons token rest ih =>
    obtain ⟨hpos, hone⟩ := hvalid token (by simp)
    obtain ⟨seq, hseqs⟩ := length_eq_one_iff.mp hone
    obtain ⟨placed, hcell, -, -, hplaced, hcounted', hfits', hfree'⟩ :=
      place_first true (tokenOrder true last token) hcounted hpos (by simp [hseqs]) hfits hfree
    rw [hseqs] at hplaced
    -- the new order is above all orders of the sequence
    have horder : ∀ cell ∈ cells, seq ∈ cell.seqId →
        cell.order < tokenOrder true last token := by
      intro cell hmem hseq
      have hle := hlast cell hmem seq hseq
      have hgiven := h.given cell hmem (Finset.ne_empty_of_mem hseq)
      unfold tokenOrder nextOrder
      rw [if_pos rfl, hseqs, headD_cons, if_neg (by omega)]
      omega
    have hnonneg : 0 ≤ tokenOrder true last token := by
      unfold tokenOrder nextOrder
      rw [if_pos rfl]
      split <;> omega
    have hafter : ∀ cell ∈ cells, ∀ q ∈ placed.seqId, q ∈ cell.seqId →
        cell.order < placed.order := by
      intro cell hmem q hq hcq
      rw [hplaced, mem_toFinset, mem_singleton] at hq
      rw [← hcell]
      exact horder cell hmem (hq ▸ hcq)
    unfold placeBatch
    dsimp only
    rw [hcell]
    refine ih hcounted' ⟨fun cell hmem hne => ?_, ?_⟩
      (fun token hmem => hvalid token (mem_cons_of_mem _ hmem)) hfits' hfree' ?_
    · rcases mem_or_eq_of_mem_set hmem with hmem | rfl
      · exact h.given cell hmem hne
      · exact hcell ▸ hnonneg
    · intro i j a b q hi hj hij ha hb
      rw [getElem?_set] at hi hj
      by_cases hri : row = i
      · rw [if_pos hri] at hi
        rw [if_neg (by omega)] at hj
        split at hi
        · obtain rfl := Option.some.inj hi
          exact (hafter b (mem_of_getElem? hj) q ha hb).ne'
        · cases hi
      · rw [if_neg hri] at hi
        by_cases hrj : row = j
        · rw [if_pos hrj] at hj
          split at hj
          · obtain rfl := Option.some.inj hj
            exact (hafter a (mem_of_getElem? hi) q hb ha).ne
          · cases hj
        · rw [if_neg hrj] at hj
          exact h.distinct hi hj hij ha hb
    · intro cell hmem q hq
      rw [if_pos rfl, hseqs, headD_cons]
      rcases mem_or_eq_of_mem_set hmem with hmem | rfl
      · by_cases hqs : q = seq
        · subst hqs
          rw [Function.update_self]
          exact Int.le_of_lt (horder cell hmem hq)
        · rw [Function.update_of_ne hqs]
          exact hlast cell hmem q hq
      · rw [hplaced, mem_toFinset, mem_singleton] at hq
        rw [hq, Function.update_self, ← hcell]
        exact Int.le_refl _

def ValidBatch (ordered : Bool) (batch : List BatchToken) : Prop :=
  ∀ token ∈ batch, 0 ≤ token.pos ∧ (ordered = false → token.seqs ≠ [])

theorem ValidBatch.seqs {ordered} (h : ValidBatch ordered batch)
    (hsingle : ordered = true → ∀ token ∈ batch, token.seqs.length = 1) :
    ∀ token ∈ batch, 0 ≤ token.pos ∧ token.seqs ≠ [] := by
  intro token hmem
  refine ⟨(h token hmem).1, ?_⟩
  cases ordered with
  | false => exact (h token hmem).2 rfl
  | true => exact ne_nil_of_length_eq_add_one (hsingle rfl token hmem)

theorem preserves_findSlot (hplain : c.recurrent = false)
    (hvalid : ValidBatch c.ordered batch) : Preserves c (c.findSlot batch).1 := by
  rcases findSlot_cases hplain batch with ⟨head, heq⟩ | ⟨head, hfits, hfree, hsingle, heq⟩
  · rw [heq]
    exact .congr rfl rfl rfl rfl
  · have hseqs := hvalid.seqs hsingle
    have hcounted : c.Accounted → Counted (placeBatch c.ordered c.lastOrder head batch c.cells)
        ((c.used + batch.length) % 2 ^ 32) := by
      intro h
      have hcounted : Counted (placeBatch c.ordered c.lastOrder head batch c.cells)
          (c.used + batch.length) := placeBatch_counted h.counted hseqs hfits hfree
      have hle := hcounted.counted ▸ countP_le_length (p := Cell.occupied)
        (l := placeBatch c.ordered c.lastOrder head batch c.cells)
      rw [length_placeBatch] at hle
      have hsmall := h.small
      unfold u32Max at hsmall
      rw [Nat.mod_eq_of_lt (by omega)]
      exact hcounted
    rw [heq]
    have haccounted : c.Accounted → ({ c with
        head := head
        cells := placeBatch c.ordered c.lastOrder head batch c.cells
        used := (c.used + batch.length) % 2 ^ 32 } : Cache).Accounted := fun h =>
      ⟨h.plain, by rw [length_placeBatch]; exact h.small, hcounted h⟩
    refine ⟨haccounted, fun h => ⟨haccounted h.toAccounted, fun ho => ?_⟩⟩
    have ho : c.ordered = true := ho
    show Chronological (placeBatch c.ordered c.lastOrder head batch c.cells)
    rw [ho]
    exact placeBatch_chronological h.counted (h.chronological ho)
      (fun token hmem => ⟨(hvalid token hmem).1, hsingle ho token hmem⟩) hfits hfree
      fun cell hmem seq hseq => h.le_lastOrder ho hmem hseq

theorem preserves_decodeSlot {env c' reply} (hplain : c.recurrent = false)
    (hvalid : ValidBatch c.ordered batch) (hdecode : c.decodeSlot env batch = some (c', reply)) :
    Preserves c c' := by
  rcases decodeSlot_cases hplain hdecode with ⟨rfl, -⟩ | ⟨settled, status, hsettled, hslot⟩
  · exact .refl _
  · have hkind := framed_update hsettled
    refine (preserves_update hsettled).trans ?_
    rcases hslot with ⟨rfl, -⟩ | ⟨head, n, rfl, -⟩
    · exact .refl _
    · have hmoved : Preserves settled { settled with head := head } := .congr rfl rfl rfl rfl
      refine hmoved.trans ((preserves_findSlot ?_ ?_).trans (.congr rfl rfl rfl rfl))
      · exact hkind.recurrent.trans hplain
      · show ValidBatch settled.ordered batch
        rw [hkind.ordered]
        exact hvalid

theorem preserves_decode {env side c' reply} (hplain : c.recurrent = false)
    (hvalid : ValidBatch c.ordered batch) (hdecode : c.decode env batch side = some (c', reply)) :
    Preserves c c' := by
  obtain ⟨slot, slotReply, hslot, ⟨rfl, -⟩ | ⟨-, -, -, w, -, rfl⟩⟩ := decode_cases hdecode
  · exact preserves_decodeSlot hplain hvalid hslot
  · exact (preserves_decodeSlot hplain hvalid hslot).trans (.congr rfl rfl rfl rfl)

end Cache

end ExpertStreaming.KvCache
