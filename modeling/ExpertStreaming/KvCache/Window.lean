import ExpertStreaming.KvCache.Runs

/-! # The attended part of the cache

After it has found room for a batch, decoding computes how many rows attention looks at. An
ordered cache scans its rows up to the last token. Any other cache looks at the last row of each
padding block only, from the end, and then at the block behind the first one that is occupied. A
block whose last row is free is thus passed over when the block before it also ends in a free
row, and the tokens in it fall out of the window.
-/
namespace ExpertStreaming.KvCache
open Lib List

namespace Cache

/-! ## The last token -/

theorem lastOccupied_concat (cells : List Cell) (cell : Cell) :
    lastOccupied (cells ++ [cell]) =
      if cell.occupied then cells.length + 1 else lastOccupied cells := by
  unfold lastOccupied
  rw [reverse_append, reverse_singleton, singleton_append, takeWhile_cons]
  cases cell.occupied <;> simp

theorem lt_lastOccupied {cells i cell} (hi : cells[i]? = some cell) (hocc : cell.occupied = true) :
    i < lastOccupied cells := by
  induction cells using reverseRecOn with
  | nil => cases hi
  | append_singleton rest last ih =>
    rw [lastOccupied_concat]
    have hlt := (List.getElem?_eq_some_iff.mp hi).1
    rw [length_append, length_singleton] at hlt
    by_cases hlast : i = rest.length
    · subst hlast
      rw [getElem?_concat_length] at hi
      obtain rfl := Option.some.inj hi
      simp [hocc]
    · rw [getElem?_append_left (by omega)] at hi
      have := ih hi
      split <;> omega

theorem lastOccupied_occupied {cells} (h : 0 < lastOccupied cells) :
    ∃ cell, cells[lastOccupied cells - 1]? = some cell ∧ cell.occupied = true := by
  induction cells using reverseRecOn with
  | nil => cases h
  | append_singleton rest last ih =>
    rw [lastOccupied_concat] at h ⊢
    split
    next hocc => exact ⟨last, by simp, hocc⟩
    next hfree =>
    rw [if_neg hfree] at h
    obtain ⟨cell, hcell, hocc⟩ := ih h
    have hlt := (List.getElem?_eq_some_iff.mp hcell).1
    exact ⟨cell, by rwa [getElem?_append_left hlt], hocc⟩

/-! ## The scan by blocks -/

/-- The last row of the block a row lies in, or of the block before it, holds a token. -/
def Probed (c : Cache) (pad : Nat) : Prop :=
  let last := lastOccupied c.cells - 1
  last < pad ∨ (c.cell (last / pad * pad - 1)).occupied = true ∨
    (c.cell (last / pad * pad + pad - 1)).occupied = true

instance (c : Cache) (pad : Nat) : Decidable (c.Probed pad) :=
  inferInstanceAs (Decidable (_ ∨ _ ∨ _))

variable {c : Cache} {pad : Nat}

/-- **The scan does not end before a row whose block, or the one before it, ends in a
token.** The induction is on the blocks still above the row. -/
theorem lt_scanPadded {fuel i last row cell} (hpad : 0 < pad) (hrow : c.cells[row]? = some cell)
    (hocc : cell.occupied = true) (hfuel : i < fuel) (hblock : pad ∣ i) (hbelow : row < i)
    (hfirst : pad ≤ row) (hprobe : (c.cell (row / pad * pad - 1)).occupied = true ∨
      (c.cell (row / pad * pad + pad - 1)).occupied = true) :
    row < c.scanPadded pad fuel i last := by
  induction fuel generalizing i last with
  | zero => omega
  | succ fuel ih =>
    have hdiv : pad * (row / pad) + row % pad = row := Nat.div_add_mod row pad
    have hmod : row % pad < pad := Nat.mod_lt _ hpad
    have hcomm : row / pad * pad = pad * (row / pad) := Nat.mul_comm _ _
    obtain ⟨b, rfl⟩ := hblock
    unfold scanPadded
    rw [if_neg (by omega)]
    split
    · omega
    next hfree =>
    obtain ⟨b, rfl⟩ : ∃ b', b = b' + 1 := ⟨b - 1, by
      cases b
      · omega
      · omega⟩
    rw [Nat.mul_succ, Nat.add_sub_cancel]
    rw [Nat.mul_succ] at hbelow hfree hfuel
    by_cases habove : row < pad * b
    · exact ih (by omega) ⟨b, rfl⟩ habove
    · -- the row lies in the block just passed, so the block before ends in a token
      have hquot : row / pad = b := by
        rw [Nat.div_eq_iff hpad]
        rw [Nat.mul_comm] at habove hbelow
        omega
      rw [hquot, Nat.mul_comm b pad] at hprobe
      have hlast : (c.cell (pad * b - 1)).occupied = true := by
        rcases hprobe with h | h
        · exact h
        · exact absurd h hfree
      obtain ⟨fuel, rfl⟩ : ∃ fuel', fuel = fuel' + 1 := ⟨fuel - 1, by omega⟩
      have hpos : pad * b ≠ 0 := by
        intro hzero
        rw [hquot, hzero] at hdiv
        omega
      unfold scanPadded
      rw [if_neg hpos, if_pos hlast]
      have hin : row - pad * b < lastOccupied ((c.cells.take (pad * b + pad)).drop (pad * b)) := by
        have hget : ((c.cells.take (pad * b + pad)).drop (pad * b))[row - pad * b]? = some cell := by
          rw [getElem?_drop, getElem?_take_of_lt (by omega),
            Nat.add_sub_cancel' (by omega)]
          exact hrow
        exact lt_lastOccupied hget hocc
      omega

theorem le_padUp (x : Nat) (hpad : 0 < pad) : x ≤ padUp x pad := by
  unfold padUp
  have hdiv := Nat.div_add_mod (x + pad - 1) pad
  have hmod := Nat.mod_lt (x + pad - 1) hpad
  rw [Nat.mul_comm] at hdiv
  omega

theorem lt_window {row found : Nat} (hpad : 0 < pad) (hsize : row < c.size)
    (h : row < found ∨ row < pad) : row < min c.size (max pad (padUp found pad)) := by
  have := le_padUp found hpad
  omega

/-! ## Decoding -/

theorem scanPadded_set_n (n fuel i last : Nat) :
    { c with n := n }.scanPadded pad fuel i last = c.scanPadded pad fuel i last := by
  induction fuel generalizing i last with
  | zero => rfl
  | succ fuel ih =>
    unfold scanPadded
    rw [ih]
    rfl

theorem cellMaxPadded_set_n (n : Nat) :
    { c with n := n }.cellMaxPadded pad = c.cellMaxPadded pad := by
  unfold cellMaxPadded
  rw [scanPadded_set_n]
  rfl

theorem decodeSlot_done {env batch c'} (hplain : c.recurrent = false)
    (h : c.decodeSlot env batch = some (c', .done)) :
    c'.n = min c'.size (max env.pad (padUp (c'.cellMaxPadded env.pad) env.pad)) := by
  rcases decodeSlot_cases hplain h with
    ⟨-, hnot⟩ | ⟨settled, status, -, ⟨-, hnot⟩ | ⟨head, n, rfl, hdone⟩⟩
  · exact absurd rfl hnot
  · exact absurd rfl hnot
  · rw [(hdone rfl).2]
    exact congrArg (fun last => min _ (max env.pad (padUp last env.pad)))
      (cellMaxPadded_set_n _).symm

/-- **After a decode attention reaches every token**, in an ordered cache always, in any other
if the last tokens are not passed over by the scan. -/
theorem decode_attends_to_every_token {env : Env} {c₀ c c' : Cache}
    {evs : List (Event Cache (Call × Reply))} {batch : List BatchToken} (hfresh : c₀.Fresh)
    (hplain : c₀.recurrent = false) (hpad : 0 < env.pad) (hsize : env.pad ∣ c₀.size)
    (hrun : Trace (Step env) c₀ evs c)
    (hok : c₀.ordered = true → (∀ ev ∈ evs, ev.before.Countable ev.label.1) ∧
      ∀ token ∈ batch, 0 ≤ token.pos)
    (hslot : c.decodeSlot env batch = some (c', .done))
    (hprobed : c₀.ordered = false → c'.Probed env.pad) :
    ∀ i cell, c'.cells[i]? = some cell → cell.occupied = true → i < c'.n := by
  have hkind := (sameKind_run hplain hrun).1
  have hplain' := hkind.recurrent.trans hplain
  have hkind' := hkind.trans (framed_decodeSlot hplain' hslot).toSameKind
  intro i cell hi hocc
  have hlt : i < c'.size := (List.getElem?_eq_some_iff.mp hi).1
  rw [decodeSlot_done hplain' hslot]
  refine lt_window hpad hlt ?_
  unfold cellMaxPadded
  cases ho : c₀.ordered with
  | true =>
    rw [if_pos (hkind'.ordered.trans ho)]
    have haccounted : c'.Accounted := by
      refine (preserves_decodeSlot hplain' (fun token hmem => ?_) hslot).accounted
        (hfresh.accounted_run hplain hrun (hok ho).1)
      refine ⟨(hok ho).2 token hmem, fun hnot => ?_⟩
      rw [hkind.ordered, ho] at hnot
      cases hnot
    exact .inl (lt_lastOccupied (haccounted.scanned hi (Cell.occupied_iff.mp hocc).2) hocc)
  | false =>
    rw [if_neg (by simp [hkind'.ordered, ho])]
    have hle := lt_lastOccupied hi hocc
    obtain ⟨top, htop, htopocc⟩ := lastOccupied_occupied (Nat.lt_of_le_of_lt (Nat.zero_le i) hle)
    have htoplt := (List.getElem?_eq_some_iff.mp htop).1
    rcases hprobed ho with hfirst | hprobe
    · exact .inr (by omega)
    · by_cases hfirst : lastOccupied c'.cells - 1 < env.pad
      · exact .inr (by omega)
      · refine .inl (Nat.lt_of_le_of_lt (Nat.le_sub_one_of_lt hle) ?_)
        refine lt_scanPadded hpad htop htopocc (Nat.lt_succ_self _) ?_ htoplt (by omega) hprobe
        unfold size
        rw [hkind'.size]
        exact hsize

def threeBlocks : Cache where
  typeK := ⟨1, 1, 2, 0, false, false⟩
  typeV := ⟨1, 1, 2, 0, false, false⟩
  cells := (List.range 96).map fun _ => {}

theorem threeBlocks_fresh : threeBlocks.Fresh where
  cells := by decide +kernel
  head := rfl
  used := rfl
  hasShift := rfl
  doDefrag := rfl
  doCopy := rfl
  size := by decide +kernel

def blocksOf32 : Env where
  graphs := stillGraphs
  compute := stillBatch
  seqMax := 1
  pad := 32

def firstTokens (n : Nat) : List BatchToken := (List.range n).map fun i => text i 0

/-- Forty tokens reach into the second block. -/
theorem decode_attends_to_forty_tokens :
    ∃ c', threeBlocks.decodeSlot blocksOf32 (firstTokens 40) = some (c', .done) ∧
      (∃ cell, c'.cells[39]? = some cell ∧ cell.occupied = true) ∧ 39 < c'.n := by
  have hruns : (threeBlocks.decodeSlot blocksOf32 (firstTokens 40)).any (fun r =>
      decide (r.2 = .done) && decide (r.1.Probed 32) &&
      (r.1.cells[39]?).any fun cell => cell.occupied) = true := by decide +kernel
  obtain ⟨⟨c', reply⟩, hslot, hok⟩ := (Option.any_eq_true _ _).mp hruns
  simp only [Bool.and_eq_true, decide_eq_true_eq] at hok
  obtain ⟨⟨rfl, hprobed⟩, hcell⟩ := hok
  obtain ⟨cell, hcell, hocc⟩ := (Option.any_eq_true _ _).mp hcell
  refine ⟨c', hslot, ⟨cell, hcell, hocc⟩, ?_⟩
  exact decode_attends_to_every_token threeBlocks_fresh rfl (by decide) (by decide) (.nil _)
    (fun ho => nomatch ho) hslot (fun _ => hprobed) 39 cell hcell hocc

/-- The first 32 of forty tokens are removed and the next goes to row 0: every block ends in a
free row, and the eight tokens left are not attended to. -/
theorem removed_block_hides_later_tokens :
    ∃ evs c c', Trace (Step blocksOf32) threeBlocks evs c ∧
      c.decodeSlot blocksOf32 [text 40 0] = some (c', .done) ∧ c'.Holds 0 ⟨39, 39, 39⟩ ∧ c'.n = 32 := by
  have hruns : (execute (call blocksOf32) threeBlocks
      [.decode (firstTokens 40) none, .seqRm 0 0 32]).any (fun r =>
        (r.2.decodeSlot blocksOf32 [text 40 0]).any fun r' => decide (r'.2 = .done) &&
          decide (r'.1.Holds 0 ⟨39, 39, 39⟩) && decide (r'.1.n = 32)) = true := by decide +kernel
  obtain ⟨⟨evs, c⟩, hrun, hok⟩ := (Option.any_eq_true _ _).mp hruns
  obtain ⟨⟨c', reply⟩, hstep, hok⟩ := (Option.any_eq_true _ _).mp hok
  simp only [Bool.and_eq_true, decide_eq_true_eq] at hok
  obtain ⟨⟨rfl, hholds⟩, hn⟩ := hok
  exact ⟨evs, c, c', execute_trace hrun, hstep, hholds, hn⟩

/-! ## The positions of a sequence -/

def scannedCells (c : Cache) (seq : Int) : List Cell :=
  (c.cells.take c.occupiedEnd).filter fun cell => seq ∈ cell.seqId

def seqPosMax (c : Cache) (seq : Int) : Int := ((c.scannedCells seq).map (·.pos)).foldl max 0

/-- `llama_kv_cache_seq_pos_min` of a cache: the position of the first cell. -/
def seqPosMinCache (c : Cache) (seq : Int) : Int := ((c.scannedCells seq).head?.map (·.pos)).getD (-1)

def seqPosMin (c : Cache) (seq : Int) : Int :=
  if c.hybrid || c.recurrent then c.seqPosMax seq else c.seqPosMinCache seq

def positions (c : Cache) (seq : Int) : Set Int :=
  {pos | ∃ cell ∈ c.cells, seq ∈ cell.seqId ∧ cell.pos = pos}

def InRowOrder (c : Cache) (seq : Int) : Prop :=
  (c.scannedCells seq).Pairwise fun a b => a.pos ≤ b.pos

instance (c : Cache) (seq : Int) : Decidable (c.InRowOrder seq) :=
  inferInstanceAs (Decidable (List.Pairwise _ _))

theorem Accounted.mem_positions {c : Cache} (h : c.Accounted) {seq pos} :
    pos ∈ c.positions seq ↔ ∃ cell ∈ c.scannedCells seq, cell.pos = pos := by
  simp only [positions, scannedCells, Set.mem_ofPred_eq, mem_filter, decide_eq_true_eq,
    and_assoc]
  constructor
  · rintro ⟨cell, hmem, hseq, hpos⟩
    obtain ⟨i, hi⟩ := mem_iff_getElem?.mp hmem
    exact ⟨cell, mem_of_getElem? (h.scanned hi (Finset.ne_empty_of_mem hseq)), hseq, hpos⟩
  · rintro ⟨cell, hmem, hseq, hpos⟩
    exact ⟨cell, mem_of_mem_take hmem, hseq, hpos⟩

/-- **The bounds of a sequence.** In a cache that is neither recurrent nor hybrid, the largest
position is found after every run, the smallest if the positions do not fall from row to row. -/
theorem seq_pos_finds_the_bounds {env : Env} {c₀ c : Cache}
    {evs : List (Event Cache (Call × Reply))} {seq : Int} (hfresh : c₀.Fresh)
    (hplain : c₀.recurrent = false) (hhybrid : c₀.hybrid = false)
    (hrun : Trace (Step env) c₀ evs c) (hok : ∀ ev ∈ evs, ev.before.Countable ev.label.1)
    (hseq : (c.positions seq).Nonempty) :
    IsGreatest (c.positions seq) (c.seqPosMax seq) ∧
      (c.InRowOrder seq → IsLeast (c.positions seq) (c.seqPosMin seq)) := by
  have hkind := (sameKind_run hplain hrun).1
  have haccounted := hfresh.accounted_run hplain hrun hok
  have hmem {p} : p ∈ c.positions seq ↔ _ := haccounted.mem_positions
  obtain ⟨pos, hpos⟩ := hseq
  have hupper : ∀ p ∈ c.positions seq, p ≤ c.seqPosMax seq := by
    intro p hp
    obtain ⟨cell, hcell, rfl⟩ := hmem.mp hp
    exact le_foldl_max (.inl (mem_map_of_mem hcell))
  refine ⟨⟨?_, hupper⟩, fun hrows => ?_⟩
  · rcases foldl_max_mem ((c.scannedCells seq).map (·.pos)) 0 with hzero | hlast
    · -- the initial zero is a position: one of the sequence is at most zero, and none is negative
      obtain ⟨cell, hcell, hin, rfl⟩ := hpos
      have hnonneg := (haccounted.counted.taken cell hcell).mpr (Finset.ne_empty_of_mem hin)
      have hle : cell.pos ≤ c.seqPosMax seq := hupper _ ⟨cell, hcell, hin, rfl⟩
      have hzero : c.seqPosMax seq = 0 := hzero
      exact ⟨cell, hcell, hin, by omega⟩
    · exact hmem.mpr (mem_map.mp hlast)
  · have hmin : c.seqPosMin seq = c.seqPosMinCache seq := by
      unfold seqPosMin
      rw [hkind.hybrid, hkind.recurrent, hhybrid, hplain]
      rfl
    rw [hmin, seqPosMinCache]
    obtain ⟨cell, hcell, -⟩ := hmem.mp hpos
    cases hcells : c.scannedCells seq with
    | nil =>
      rw [hcells] at hcell
      cases hcell
    | cons first rest =>
      refine ⟨hmem.mpr ⟨first, by rw [hcells]; exact mem_cons_self, rfl⟩, fun p hp => ?_⟩
      obtain ⟨cell, hcell, rfl⟩ := hmem.mp hp
      unfold InRowOrder at hrows
      rw [hcells] at hcell hrows
      rcases mem_cons.mp hcell with rfl | hlater
      · exact le_rfl
      · exact rel_of_pairwise_cons hrows hlater

/-- Three tokens in a row, of which the first is removed. -/
theorem bounds_of_two_tokens :
    ∃ evs c, Trace (Step blocksOf32) threeBlocks evs c ∧
      IsGreatest (c.positions 0) (c.seqPosMax 0) ∧ IsLeast (c.positions 0) (c.seqPosMin 0) := by
  have hruns : (execute (call blocksOf32) threeBlocks
      [.decode (firstTokens 3) none, .seqRm 0 0 1]).any (fun r =>
        r.1.all (fun ev => decide (ev.before.Countable ev.label.1)) &&
        decide (r.2.InRowOrder 0) &&
        r.2.cells.any fun cell => decide (0 ∈ cell.seqId)) = true := by decide +kernel
  obtain ⟨⟨evs, c⟩, hrun, hok⟩ := (Option.any_eq_true _ _).mp hruns
  simp only [Bool.and_eq_true, decide_eq_true_eq, all_eq_true, any_eq_true] at hok
  obtain ⟨⟨hvalid, hrows⟩, cell, hcell, hin⟩ := hok
  obtain ⟨hmax, hmin⟩ := seq_pos_finds_the_bounds threeBlocks_fresh rfl rfl (execute_trace hrun)
    hvalid ⟨cell.pos, cell, hcell, hin, rfl⟩
  exact ⟨evs, c, execute_trace hrun, hmax, hmin hrows⟩

/-- The next token takes the row of a removed first one, and its position is returned as smallest.
-/
theorem refilled_row_hides_the_smallest_position :
    ∃ evs c, Trace (Step blocksOf32) threeBlocks evs c ∧
      1 ∈ c.positions 0 ∧ c.seqPosMin 0 = 2 := by
  have hruns : (execute (call blocksOf32) threeBlocks
      [.decode (firstTokens 2) none, .seqRm 0 0 1, .decode [text 2 0] none]).any (fun r =>
        (r.2.cells.any fun cell => decide (0 ∈ cell.seqId) && decide (cell.pos = 1)) &&
        decide (r.2.seqPosMin 0 = 2)) = true := by decide +kernel
  obtain ⟨⟨evs, c⟩, hrun, hok⟩ := (Option.any_eq_true _ _).mp hruns
  simp only [Bool.and_eq_true, decide_eq_true_eq, any_eq_true] at hok
  obtain ⟨⟨cell, hcell, hin, hpos⟩, hmin⟩ := hok
  exact ⟨evs, c, execute_trace hrun, ⟨cell, hcell, hin, hpos⟩, hmin⟩

end Cache

end ExpertStreaming.KvCache
