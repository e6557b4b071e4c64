import ExpertStreaming.KvCache.Copying

/-! # Runs of calls

A run starts from a cache as it is created. Tokens are counted along every run that decodes
tokens at positions and divides plain positions by positive numbers. The orders of an ordered
cache also need that it copies only what can be copied exactly.
-/
namespace ExpertStreaming.KvCache
open Lib Option

namespace Cache

def Countable (c : Cache) : Call → Prop
  | .decode batch _ => ValidBatch c.ordered batch
  | .seqDiv _ _ _ d _ => c.ordered = false → 0 < d
  | _ => True

instance (c : Cache) (a : Call) : Decidable (c.Countable a) :=
  match a with
  | .decode batch _ => inferInstanceAs (Decidable
      (∀ token ∈ batch, 0 ≤ token.pos ∧ (c.ordered = false → token.seqs ≠ [])))
  | .seqDiv _ _ _ d _ => inferInstanceAs (Decidable (c.ordered = false → 0 < d))
  | .seqCp .. | .seqRm .. | .seqKeep .. | .seqAdd .. | .clear | .defrag | .update =>
    inferInstanceAs (Decidable True)

/-- The calls that keep the invariant: a copy also has to be exact. -/
def Admissible (c : Cache) (a : Call) : Prop :=
  c.Countable a ∧ ∀ src dst p0 p1 side, a = .seqCp src dst p0 p1 side →
    c.ordered = true → c.Copyable src dst p0 p1

instance (c : Cache) (a : Call) : Decidable (c.Admissible a) :=
  match a with
  | .seqCp src dst p0 p1 side =>
    decidable_of_iff (c.ordered = true → c.Copyable src dst p0 p1)
      ⟨fun h => ⟨trivial, fun _ _ _ _ _ heq => by cases heq; exact h⟩,
        fun h => h.2 src dst p0 p1 side rfl⟩
  | .decode batch side =>
    decidable_of_iff (c.Countable (.decode batch side)) ⟨fun h => ⟨h, nofun⟩, And.left⟩
  | .seqDiv seq p0 p1 d side =>
    decidable_of_iff (c.Countable (.seqDiv seq p0 p1 d side)) ⟨fun h => ⟨h, nofun⟩, And.left⟩
  | .seqRm .. | .seqKeep .. | .seqAdd .. | .clear | .defrag | .update =>
    .isTrue ⟨trivial, nofun⟩

variable {c c' : Cache} {env : Env} {reply : Reply} {evs : List (Event Cache (Call × Reply))}

theorem Fresh.cell_eq (h : c.Fresh) {i : Nat} {cell : Cell}
    (hi : c.cells[i]? = some cell) : cell = { src := if c.recurrent || c.hybrid then i else 0 } := by
  rw [h.cells, List.getElem?_map, map_eq_some_iff] at hi
  obtain ⟨j, hj, rfl⟩ := hi
  rw [List.getElem?_range (by
    have := (List.getElem?_eq_some_iff.mp hj).1
    rwa [List.length_range] at this)] at hj
  rw [some.inj hj]

theorem Fresh.sound (h : c.Fresh) (hplain : c.recurrent = false) : c.Sound := by
  refine .of_empty hplain h.size h.used fun cell hmem => ?_
  obtain ⟨i, hi⟩ := List.mem_iff_getElem?.mp hmem
  rw [h.cell_eq hi]
  exact ⟨rfl, rfl⟩

theorem preserves_addPositions {seq p0 p1 delta side} (hplain : c.recurrent = false)
    (hadd : c.addPositions env seq p0 p1 delta side = some (c', reply)) : Preserves c c' := by
  rcases Cache.addPositions_cases hadd with rfl | ⟨-, rfl⟩ | ⟨-, -, -, hmoved⟩
  · exact .refl _
  · exact preserves_transformPositions env seq p0 p1 delta 1 side
  · exact preserves_seqAdd hplain hmoved

theorem preserves_dividePositions {seq p0 p1 d side} (hplain : c.recurrent = false)
    (hd : c.ordered = false → 0 < d)
    (hdiv : c.dividePositions env seq p0 p1 d side = some (c', reply)) : Preserves c c' := by
  rcases Cache.dividePositions_cases hdiv with rfl | ⟨-, -, rfl⟩ | ⟨ho, -, -, hmoved⟩
  · exact .refl _
  · exact preserves_transformPositions env seq p0 p1 0 d side
  · exact preserves_seqDiv hplain (hd ho) hmoved

theorem preserves_call {a} (hplain : c.recurrent = false) (hstep : call env c a = some (c', reply))
    (hok : c.Countable a) (hcopy : ∀ src dst p0 p1 side, a ≠ .seqCp src dst p0 p1 side) :
    Preserves c c' := by
  cases a with
  | decode batch side => exact preserves_decode hplain hok hstep
  | seqRm seq p0 p1 =>
    obtain rfl := congrArg Prod.fst (some.inj hstep)
    exact preserves_seqRm seq p0 p1
  | seqCp src dst p0 p1 side => exact absurd rfl (hcopy src dst p0 p1 side)
  | seqKeep seq =>
    obtain rfl := congrArg Prod.fst (some.inj hstep)
    exact preserves_seqKeep seq
  | seqAdd seq p0 p1 delta side => exact preserves_addPositions hplain hstep
  | seqDiv seq p0 p1 d side => exact preserves_dividePositions hplain hok hstep
  | clear =>
    obtain rfl := congrArg Prod.fst (some.inj hstep)
    exact preserves_clear
  | defrag =>
    obtain rfl := congrArg Prod.fst (some.inj hstep)
    show Preserves c c.defrag
    unfold Cache.defrag
    split
    · exact .refl c
    · exact .congr rfl rfl rfl rfl
  | update =>
    unfold call at hstep
    obtain ⟨⟨settled, status⟩, hsettled, heq⟩ := map_eq_some_iff.mp hstep
    cases heq
    exact preserves_update hsettled

/-- **A call keeps the count.** -/
theorem Accounted.step {label} (h : c.Accounted) (hstep : Step env c label c')
    (hok : c.Countable label.1) : c'.Accounted := by
  obtain ⟨a, reply⟩ := label
  by_cases hcopy : ∃ src dst p0 p1 side, a = .seqCp src dst p0 p1 side
  · obtain ⟨src, dst, p0, p1, side, rfl⟩ := hcopy
    exact h.copySequence hstep
  · refine (preserves_call h.plain hstep hok ?_).accounted h
    exact fun src dst p0 p1 side heq => hcopy ⟨src, dst, p0, p1, side, heq⟩

/-- **A call that is admissible keeps the invariant.** -/
theorem Sound.step {label : Call × Reply} (h : c.Sound)
    (hstep : Step env c label c') (hok : c.Admissible label.1) : c'.Sound := by
  obtain ⟨a, reply⟩ := label
  by_cases hcopy : ∃ src dst p0 p1 side, a = .seqCp src dst p0 p1 side
  · obtain ⟨src, dst, p0, p1, side, rfl⟩ := hcopy
    exact h.copySequence (hok.2 src dst p0 p1 side rfl) hstep
  · refine (preserves_call h.plain hstep hok.1 ?_).sound h
    exact fun src dst p0 p1 side heq => hcopy ⟨src, dst, p0, p1, side, heq⟩

/-- **The count along a run.** -/
theorem Fresh.accounted_run {c₀} (hfresh : c₀.Fresh) (hplain : c₀.recurrent = false)
    (hrun : Trace (Step env) c₀ evs c) (hok : ∀ ev ∈ evs, ev.before.Countable ev.label.1) :
    c.Accounted :=
  (hrun.invariant_of (C := fun ev => ev.before.Countable ev.label.1)
    (fun _ _ _ h hstep hok => h.step hstep hok) hok (hfresh.sound hplain).toAccounted).1

/-- **The invariant along a run.** -/
theorem Fresh.sound_run {c₀} (hfresh : c₀.Fresh) (hplain : c₀.recurrent = false)
    (hrun : Trace (Step env) c₀ evs c) (hok : ∀ ev ∈ evs, ev.before.Admissible ev.label.1) :
    c.Sound :=
  (hrun.invariant_of (C := fun ev => ev.before.Admissible ev.label.1)
    (fun _ _ _ h hstep hok => h.step hstep hok) hok (hfresh.sound hplain)).1

theorem sameKind_run {c₀} (hplain : c₀.recurrent = false) (hrun : Trace (Step env) c₀ evs c) :
    SameKind c₀ c ∧ ∀ ev ∈ evs, SameKind c₀ ev.before := by
  have hall := hrun.invariant (I := SameKind c₀)
    (fun s a s' hs hstep => hs.trans (sameKind_call (hs.recurrent.trans hplain) hstep)) (.refl _)
  exact ⟨hall.1, fun ev hev => (hall.2 ev hev).1⟩

/-- **A copy gives the destination the source's tokens in the range**, if every earlier copy was
exact, and changes no other sequence. -/
theorem copy_gives_the_tokens_in_range {env : Env} {c₀ c c' : Cache}
    {evs : List (Event Cache (Call × Reply))} {src dst p0 p1 : Int} {side : Option String}
    (hfresh : c₀.Fresh) (hplain : c₀.recurrent = false) (hrun : Trace (Step env) c₀ evs c)
    (hok : c₀.ordered = true → ∀ ev ∈ evs, ev.before.Admissible ev.label.1)
    (hstep : Step env c (.seqCp src dst p0 p1 side, .done) c')
    (hcopy : c.Copyable src dst p0 p1) : CopiesExactly c c' src dst p0 p1 := by
  have hsame := (sameKind_run hplain hrun).1
  refine copySequence_exactly (hsame.recurrent.trans hplain) (fun ho => ?_) hcopy hstep
  exact hfresh.sound_run hplain hrun (hok (hsame.ordered ▸ ho))

def stillGraphs : Graphs where
  maxMoves := 8
  shiftK _ _ t := t.bytes
  shiftKr _ _ t := t.bytes
  moveK _ _ t := t.bytes
  moveV _ _ t := t.bytes
  moveKr _ _ t := t.bytes

def stillBatch (_ : Cache) (_ : List BatchToken) : Except Int Written :=
  .ok ⟨fun _ t => t.bytes, fun _ t => t.bytes, fun _ t => t.bytes, fun _ t => t.bytes⟩

def text (pos seq : Int) : BatchToken := { pos := pos, seqs := [seq] }

def threeSequences : Env where
  graphs := stillGraphs
  compute := stillBatch
  seqMax := 3
  pad := 4

/-- An ordered hybrid cache of eight rows with the states of three sequences. -/
def eightRows : Cache where
  hybrid := true
  ordered := true
  typeK := ⟨1, 1, 2, 0, false, false⟩
  typeV := ⟨1, 1, 2, 0, false, false⟩
  cells := (List.range 8).map fun i => { src := i }
  s := [some { type := ⟨0, 1, 4, 0, false, false⟩, ne0 := 1, ne1 := 3, bytes := fun a => a.toUInt8 }]

theorem eightRows_fresh : eightRows.Fresh where
  cells := by decide +kernel
  head := rfl
  used := rfl
  hasShift := rfl
  doDefrag := rfl
  doCopy := rfl
  size := by decide

/-- Two tokens are copied, the copy is applied, and one of them is copied on. -/
theorem copy_gives_the_tokens_in_range_after_an_update :
    ∃ evs c c', Trace (Step threeSequences) eightRows evs c ∧
      Step threeSequences c (.seqCp 1 2 0 1 none, .done) c' ∧ c.Holds 1 ⟨0, 0, 0⟩ ∧
      CopiesExactly c c' 1 2 0 1 := by
  have hruns : (execute (call threeSequences) eightRows
      [.decode [text 0 0, text 1 0] none, .seqCp 0 1 0 (-1) none, .update]).any (fun r =>
        r.1.all (fun ev => decide (ev.before.Admissible ev.label.1)) &&
        decide (r.2.Copyable 1 2 0 1) &&
        decide (r.2.Holds 1 ⟨0, 0, 0⟩) &&
        (call threeSequences r.2 (.seqCp 1 2 0 1 none)).any fun r' => decide (r'.2 = .done)) =
      true := by decide +kernel
  obtain ⟨⟨evs, c⟩, hrun, hok⟩ := (any_eq_true _ _).mp hruns
  simp only [Bool.and_eq_true, decide_eq_true_eq, List.all_eq_true] at hok
  obtain ⟨⟨⟨hvalid, hcopy⟩, hholds⟩, hcall⟩ := hok
  obtain ⟨⟨c', reply⟩, hstep, hdone⟩ := (any_eq_true _ _).mp hcall
  simp only [decide_eq_true_eq] at hdone
  subst hdone
  exact ⟨evs, c, c', execute_trace hrun, hstep, hholds,
    copy_gives_the_tokens_in_range eightRows_fresh rfl (execute_trace hrun) (fun _ => hvalid)
      hstep hcopy⟩

/-- Copied on before an update, a copied sequence passes on the rows of its source only. -/
theorem chained_copy_shares_the_wrong_rows :
    ∃ evs c c', Trace (Step threeSequences) eightRows evs c ∧
      Step threeSequences c (.seqCp 1 2 0 (-1) none, .done) c' ∧
      c.Holds 1 ⟨5, 5, 1⟩ ∧ Copied 0 (-1) 5 ∧ ¬ c'.Holds 2 ⟨5, 5, 1⟩ := by
  have hruns : (execute (call threeSequences) eightRows
      [.decode [text 0 0] none, .decode [text 5 1] none, .seqCp 0 1 0 (-1) none]).any (fun r =>
        decide (r.2.Holds 1 ⟨5, 5, 1⟩) &&
        (call threeSequences r.2 (.seqCp 1 2 0 (-1) none)).any fun r' => decide (r'.2 = .done) &&
          decide (¬ r'.1.Holds 2 ⟨5, 5, 1⟩)) = true := by decide +kernel
  obtain ⟨⟨evs, c⟩, hrun, hok⟩ := (any_eq_true _ _).mp hruns
  simp only [Bool.and_eq_true, decide_eq_true_eq] at hok
  obtain ⟨hholds, hcall⟩ := hok
  obtain ⟨⟨c', reply⟩, hstep, hdone⟩ := (any_eq_true _ _).mp hcall
  simp only [Bool.and_eq_true, decide_eq_true_eq] at hdone
  obtain ⟨rfl, hafter⟩ := hdone
  exact ⟨evs, c, c', execute_trace hrun, hstep, hholds, by decide, hafter⟩

end Cache

end ExpertStreaming.KvCache
