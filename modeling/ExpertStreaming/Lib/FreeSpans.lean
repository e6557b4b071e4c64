import Mathlib.Data.Finset.Max
import Mathlib.Order.Interval.Set.Basic
import Mathlib.Data.List.Pairwise
import Mathlib.Data.List.TakeWhile

/-! # An index of maximal free spans

A first-fit allocator keeps the free part of an address range as maximal spans,
ordered by address, and beside them the set of starts of those spans in which a
request can be placed. Inserting a span absorbs the neighbours it touches. The
index always denotes a set of addresses, insertion is set union, and the lowest
fitting start is found without looking at the other spans.
-/
namespace ExpertStreaming.Lib
open List

abbrev Span := Nat × Nat

/-- The addresses covered by a list of spans. -/
def cells (l : List Span) : Set Nat := {x | ∃ g ∈ l, g.1 ≤ x ∧ x < g.2}

@[simp] theorem cells_nil : cells [] = ∅ := by
  ext x; simp [cells]

@[simp] theorem cells_cons (g : Span) (l : List Span) :
    cells (g :: l) = Set.Ico g.1 g.2 ∪ cells l := by
  ext x; simp [cells]

@[simp] theorem cells_append (l m : List Span) : cells (l ++ m) = cells l ∪ cells m := by
  ext x; simp [cells, or_and_right, exists_or]

/-- The spans behind one ending at `stop` that absorbs those it reaches: the new end, the starts
absorbed, and the spans that stay. -/
def absorb (stop : Nat) : List Span → Nat × List Nat × List Span
  | [] => (stop, [], [])
  | g :: rest =>
    if g.1 ≤ stop then
      let r := absorb (max stop g.2) rest
      (r.1, g.1 :: r.2.1, r.2.2)
    else (stop, [], g :: rest)

/-- What `absorb` does to the spans after an insertion point. -/
structure Absorbed (start stop : Nat) (after : List Span) (r : Nat × List Nat × List Span) :
    Prop where
  grows : stop ≤ r.1
  beyond : ∀ g ∈ r.2.2, r.1 < g.1
  split : ∃ gone, after = gone ++ r.2.2 ∧ r.2.1 = gone.map Prod.fst ∧
    Set.Ico start r.1 = Set.Ico start stop ∪ cells gone

theorem absorbed_absorb {start} :
    ∀ (after : List Span) (stop : Nat), start ≤ stop → (∀ g ∈ after, start ≤ g.1) →
      after.Pairwise (fun a b => a.2 < b.1) → (∀ g ∈ after, g.1 < g.2) →
      Absorbed start stop after (absorb stop after)
  | [], stop, _, _, _, _ => ⟨le_rfl, by simp [absorb], [], by simp [absorb]⟩
  | g :: rest, stop, hss, hstart, hsep, hne => by
    obtain ⟨hfirst, hsep⟩ := List.pairwise_cons.mp hsep
    have hg := hne g List.mem_cons_self
    have hgs := hstart g List.mem_cons_self
    unfold absorb
    split
    next hle =>
      obtain ⟨hgrow, hbeyond, gone, hsplit, herased, hcells⟩ :=
        absorbed_absorb rest (max stop g.2) (hss.trans (le_max_left _ _))
          (fun x hx => hstart x (mem_cons_of_mem _ hx)) hsep
          (fun x hx => hne x (mem_cons_of_mem _ hx))
      refine ⟨(le_max_left _ _).trans hgrow, hbeyond, g :: gone, ?_, ?_, ?_⟩
      · exact congrArg (g :: ·) hsplit
      · exact congrArg (g.1 :: ·) herased
      · -- the absorbed span starts inside the growing one, so their union is one range
        have hunion : Set.Ico start (max stop g.2) = Set.Ico start stop ∪ Set.Ico g.1 g.2 := by
          ext x
          simp only [Set.mem_Ico, Set.mem_union, lt_max_iff]
          omega
        rw [hcells, hunion, cells_cons, Set.union_assoc]
    next hgt =>
    refine ⟨le_rfl, ?_, [], by simp⟩
    intro x hx
    rcases mem_cons.mp hx with rfl | hx
    · exact not_le.mp hgt
    · exact (not_le.mp hgt).trans (hg.trans (hfirst x hx))

/-- A span joined with the predecessor that reaches it: the span, those before it, the start that
left. -/
def joinBefore (start stop : Nat) (before : List Span) : Span × List Span × List Nat :=
  match before.getLast? with
  | some previous =>
    if start ≤ previous.2 then
      ((previous.1, max stop previous.2), before.dropLast, [previous.1])
    else ((start, stop), before, [])
  | none => ((start, stop), before, [])

/-- What `joinBefore` does to the spans before an insertion point. -/
structure Joined (start stop : Nat) (before : List Span) (r : Span × List Span × List Nat) :
    Prop where
  lower : r.1.1 ≤ start
  upper : stop ≤ r.1.2
  apart : ∀ k ∈ r.2.1, k.2 < r.1.1
  split : ∃ gone, before = r.2.1 ++ gone ∧ r.2.2 = gone.map Prod.fst ∧
    Set.Ico r.1.1 r.1.2 = Set.Ico start stop ∪ cells gone

theorem joined_joinBefore {start stop before} (hbefore : ∀ g ∈ before, g.1 < start)
    (hsep : before.Pairwise (fun a b => a.2 < b.1)) (hne : ∀ g ∈ before, g.1 < g.2) :
    Joined start stop before (joinBefore start stop before) := by
  unfold joinBefore
  cases before using reverseRecOn with
  | nil => exact ⟨le_rfl, le_rfl, by simp, [], by simp⟩
  | append_singleton kept previous =>
    simp only [getLast?_concat, dropLast_concat]
    obtain ⟨_, _, hkept⟩ := pairwise_append.mp hsep
    have hprev := hbefore previous (by simp)
    have hpos := hne previous (by simp)
    have hlast : ∀ k ∈ kept, k.2 < previous.1 := fun k hk => hkept k hk previous (by simp)
    split
    next hreach =>
      refine ⟨hprev.le, le_max_left _ _, hlast, [previous], rfl, rfl, ?_⟩
      ext x
      simp only [Set.mem_Ico, cells_cons, cells_nil, Set.union_empty, Set.mem_union, lt_max_iff]
      omega
    next hshort =>
    refine ⟨le_rfl, le_rfl, ?_, [], by simp⟩
    intro k hk
    rcases mem_append.mp hk with hk | hk
    · exact (hlast k hk).trans (hprev)
    · obtain rfl := mem_singleton.mp hk
      exact not_le.mp hshort

/-- Free spans, non-empty, in address order and never touching, with the starts at which `place`
finds room. -/
structure FreeSpans (place : Nat → Nat → Option Nat) where
  spans : List Span
  fitting : Finset Nat
  nonempty : ∀ g ∈ spans, g.1 < g.2
  separated : spans.Pairwise fun a b => a.2 < b.1
  mem_fitting : ∀ x, x ∈ fitting ↔ ∃ g ∈ spans, g.1 = x ∧ (place g.1 g.2).isSome

namespace FreeSpans
variable {place : Nat → Nat → Option Nat}

def empty (place : Nat → Nat → Option Nat) : FreeSpans place :=
  ⟨[], ∅, by simp, by simp, by simp⟩

/-- The addresses the index holds free. -/
def free (f : FreeSpans place) : Set Nat := cells f.spans

/-- What an insertion leaves: the spans before it, the new one, those after it, the starts that
left. -/
def pieces (f : FreeSpans place) (start stop : Nat) :
    List Span × Span × List Span × List Nat :=
  let j := joinBefore start stop (f.spans.takeWhile (·.1 < start))
  let a := absorb j.1.2 (f.spans.dropWhile (·.1 < start))
  (j.2.1, (j.1.1, a.1), a.2.2, j.2.2 ++ a.2.1)

/-- The new span is the inserted range together with the touching run it replaces. -/
structure Pieces (f : FreeSpans place) (start stop : Nat)
    (r : List Span × Span × List Span × List Nat) : Prop where
  lower : r.2.1.1 ≤ start
  upper : stop ≤ r.2.1.2
  before : ∀ k ∈ r.1, k.2 < r.2.1.1
  after : ∀ g ∈ r.2.2.1, r.2.1.2 < g.1
  split : ∃ gone, f.spans = r.1 ++ gone ++ r.2.2.1 ∧ r.2.2.2 = gone.map Prod.fst ∧
    Set.Ico r.2.1.1 r.2.1.2 = Set.Ico start stop ∪ cells gone

theorem starts_after (f : FreeSpans place) (start : Nat) :
    ∀ g ∈ f.spans.dropWhile (·.1 < start), start ≤ g.1 := by
  have hsorted : f.spans.Pairwise fun a b => a.1 < b.1 :=
    f.separated.imp_of_mem fun ha _ h => (f.nonempty _ ha).trans h
  intro g hg
  cases hd : f.spans.dropWhile (·.1 < start) with
  | nil => rw [hd] at hg; cases hg
  | cons first rest =>
    have hfirst : start ≤ first.1 := by
      have := head?_dropWhile_not (fun g : Span => decide (g.1 < start)) f.spans
      rw [hd] at this
      simpa using this
    rw [hd] at hg
    rcases mem_cons.mp hg with rfl | hrest
    · exact hfirst
    · have hsub := hsorted.sublist (dropWhile_sublist (fun g : Span => g.1 < start))
      rw [hd] at hsub
      exact hfirst.trans ((pairwise_cons.mp hsub).1 g hrest).le

theorem pieces_spec (f : FreeSpans place) {start stop} (hlt : start < stop) :
    Pieces f start stop (f.pieces start stop) := by
  have htake := takeWhile_sublist (l := f.spans) (fun g : Span => g.1 < start)
  have hdrop := dropWhile_sublist (l := f.spans) (fun g : Span => g.1 < start)
  obtain ⟨hlower, hupper, hapart, gone₁, hsplit₁, hgone₁, hcells₁⟩ :=
    @joined_joinBefore start stop _
      (fun g hg => by simpa using mem_takeWhile_imp hg)
      (f.separated.sublist htake) (fun g hg => f.nonempty g (htake.subset hg))
  obtain ⟨hgrows, hbeyond, gone₂, hsplit₂, hgone₂, hcells₂⟩ :=
    absorbed_absorb _ _ (hlower.trans (hlt.le.trans hupper))
      (fun g hg => hlower.trans (f.starts_after start g hg))
      (f.separated.sublist hdrop) (fun g hg => f.nonempty g (hdrop.subset hg))
  refine ⟨hlower, hupper.trans hgrows, hapart, hbeyond, gone₁ ++ gone₂, ?_, ?_, ?_⟩
  · have hwhole := takeWhile_append_dropWhile (p := fun g : Span => g.1 < start) (l := f.spans)
    rw [← hwhole, append_assoc, append_assoc, ← append_assoc]
    exact congrArg₂ (· ++ ·) hsplit₁ hsplit₂
  · simp [pieces, hgone₁, hgone₂]
  · rw [cells_append, ← Set.union_assoc, ← hcells₁]
    exact hcells₂

theorem apart_of_ne (f : FreeSpans place) {g h : Span} (hg : g ∈ f.spans) (hh : h ∈ f.spans)
    (hne : g ≠ h) : g.2 < h.1 ∨ h.2 < g.1 := by
  have hboth : f.spans.Pairwise fun a b => a.2 < b.1 ∨ b.2 < a.1 := f.separated.imp Or.inl
  have : Std.Symm fun a b : Span => a.2 < b.1 ∨ b.2 < a.1 := ⟨fun _ _ h => h.symm⟩
  exact hboth.forall hg hh hne

/-- Starts tell spans apart. -/
theorem start_injective (f : FreeSpans place) {g h} (hg : g ∈ f.spans) (hh : h ∈ f.spans)
    (heq : g.1 = h.1) : g = h := by
  by_contra hne
  have hgpos := f.nonempty g hg
  have hhpos := f.nonempty h hh
  rcases f.apart_of_ne hg hh hne with hlt | hlt <;> omega

section Insert
variable {f : FreeSpans place} {start stop : Nat} {r : List Span × Span × List Span × List Nat}

theorem Pieces.nonempty (hr : Pieces f start stop r) (hlt : start < stop) :
    ∀ g ∈ r.1 ++ r.2.1 :: r.2.2.1, g.1 < g.2 := by
  obtain ⟨hlower, hupper, _, _, gone, hsplit, _⟩ := hr
  intro g hg
  rcases mem_append.mp hg with hg | hg
  · exact f.nonempty g (by rw [hsplit]; simp [hg])
  · rcases mem_cons.mp hg with rfl | hg
    · omega
    · exact f.nonempty g (by rw [hsplit]; simp [hg])

theorem Pieces.separated (hr : Pieces f start stop r) :
    (r.1 ++ r.2.1 :: r.2.2.1).Pairwise fun a b => a.2 < b.1 := by
  obtain ⟨_, _, hbefore, hafter, gone, hsplit, _⟩ := hr
  have hsep := f.separated
  rw [hsplit] at hsep
  obtain ⟨hleft, hright, hcross⟩ := pairwise_append.mp hsep
  refine pairwise_append.mpr ⟨(pairwise_append.mp hleft).1,
    pairwise_cons.mpr ⟨hafter, hright⟩, ?_⟩
  intro a ha b hb
  rcases mem_cons.mp hb with rfl | hb
  · exact hbefore a ha
  · exact hcross a (mem_append_left _ ha) b hb

theorem Pieces.mem_fitting (hr : Pieces f start stop r) (x : Nat) :
    (x ∈ if (place r.2.1.1 r.2.1.2).isSome then
        Insert.insert r.2.1.1 (f.fitting.filter (· ∉ r.2.2.2))
      else f.fitting.filter (· ∉ r.2.2.2)) ↔
      ∃ g ∈ r.1 ++ r.2.1 :: r.2.2.1, g.1 = x ∧ (place g.1 g.2).isSome := by
  obtain ⟨_, _, _, _, gone, hsplit, hgone, _⟩ := hr
  -- a fitting start stays exactly when its span was not absorbed
  have hkept : x ∈ f.fitting.filter (· ∉ r.2.2.2) ↔
      ∃ g ∈ r.1 ++ r.2.2.1, g.1 = x ∧ (place g.1 g.2).isSome := by
    rw [Finset.mem_filter, f.mem_fitting, hgone]
    constructor
    · rintro ⟨⟨g, hg, rfl, hfit⟩, hstays⟩
      have hng : g ∉ gone := fun h => hstays (mem_map_of_mem h)
      rw [hsplit] at hg
      exact ⟨g, by simpa [hng] using hg, rfl, hfit⟩
    · rintro ⟨g, hg, rfl, hfit⟩
      have hmem : g ∈ f.spans := by
        rw [hsplit]
        rcases mem_append.mp hg with hg | hg <;> simp [hg]
      refine ⟨⟨g, hmem, rfl, hfit⟩, ?_⟩
      intro habs
      obtain ⟨h, hh, heq⟩ := mem_map.mp habs
      obtain rfl := f.start_injective (by rw [hsplit]; simp [hh]) hmem heq
      have hnodup : f.spans.Nodup := f.separated.imp_of_mem fun {a b} ha _ hab he => by
        subst he; exact absurd (f.nonempty a ha) (by omega)
      rw [hsplit, append_assoc, nodup_append, nodup_append] at hnodup
      obtain ⟨_, ⟨_, _, hrest⟩, hleft⟩ := hnodup
      rcases mem_append.mp hg with hg | hg
      · exact hleft h hg h (by simp [hh]) rfl
      · exact hrest h hh h hg rfl
  have hnew : (∃ g ∈ r.1 ++ r.2.1 :: r.2.2.1, g.1 = x ∧ (place g.1 g.2).isSome) ↔
      (r.2.1.1 = x ∧ (place r.2.1.1 r.2.1.2).isSome) ∨
        ∃ g ∈ r.1 ++ r.2.2.1, g.1 = x ∧ (place g.1 g.2).isSome := by
    simp only [mem_append, mem_cons, or_and_right, exists_or, exists_eq_left]
    exact or_left_comm
  rw [hnew]
  split
  next hfit => rw [Finset.mem_insert, hkept, and_iff_left hfit, eq_comm]
  next hfit => rw [hkept]; simp [hfit]

end Insert

/-- Add the addresses `[start, stop)`. -/
def insert (f : FreeSpans place) (start stop : Nat) : FreeSpans place :=
  if hlt : start < stop then
    { spans := (f.pieces start stop).1 ++ (f.pieces start stop).2.1 :: (f.pieces start stop).2.2.1
      fitting :=
        if (place (f.pieces start stop).2.1.1 (f.pieces start stop).2.1.2).isSome then
          Insert.insert (f.pieces start stop).2.1.1
            (f.fitting.filter (· ∉ (f.pieces start stop).2.2.2))
        else f.fitting.filter (· ∉ (f.pieces start stop).2.2.2)
      nonempty := (f.pieces_spec hlt).nonempty hlt
      separated := (f.pieces_spec hlt).separated
      mem_fitting := (f.pieces_spec hlt).mem_fitting }
  else f

/-- **Insertion is set union.** -/
@[simp] theorem free_insert (f : FreeSpans place) (start stop : Nat) :
    (f.insert start stop).free = f.free ∪ Set.Ico start stop := by
  unfold insert
  split
  next hlt =>
    obtain ⟨_, _, _, _, gone, hsplit, _, hcells⟩ := f.pieces_spec hlt
    simp only [free, cells_append, cells_cons, hcells]
    rw [hsplit]
    simp only [cells_append]
    ext x
    simp only [Set.mem_union]
    tauto
  next hge =>
    rw [Set.Ico_eq_empty hge, Set.union_empty]

@[simp] theorem free_empty : (empty place).free = ∅ := cells_nil

/-- A non-empty range of free addresses lies in one span. -/
theorem exists_span (f : FreeSpans place) {a b} (hlt : a < b) (hsub : Set.Ico a b ⊆ f.free) :
    ∃ g ∈ f.spans, g.1 ≤ a ∧ b ≤ g.2 := by
  obtain ⟨g, hg, hga, hag⟩ := hsub ⟨le_rfl, hlt⟩
  refine ⟨g, hg, hga, ?_⟩
  by_contra hshort
  -- the address just past `g` would be free too, in a span touching `g`
  obtain ⟨h, hh, hle, hlt'⟩ := hsub ⟨hag.le, not_le.mp hshort⟩
  have hne : g ≠ h := by rintro rfl; exact lt_irrefl _ hlt'
  rcases f.apart_of_ne hg hh hne with hap | hap <;> omega

theorem Ico_subset_free (f : FreeSpans place) {g} (hg : g ∈ f.spans) :
    Set.Ico g.1 g.2 ⊆ f.free := fun _ hx => ⟨g, hg, hx.1, hx.2⟩

/-- The placement in the lowest span that has room. -/
def firstFit (f : FreeSpans place) : Option Nat :=
  if h : f.fitting.Nonempty then
    (f.spans.find? (·.1 = f.fitting.min' h)).bind fun g => place g.1 g.2
  else none

theorem firstFit_of_nonempty (f : FreeSpans place) (h : f.fitting.Nonempty) :
    ∃ g ∈ f.spans, (place g.1 g.2).isSome ∧ f.firstFit = place g.1 g.2 ∧
      ∀ k ∈ f.spans, (place k.1 k.2).isSome → g.1 ≤ k.1 := by
  obtain ⟨g, hg, hstart, hfit⟩ := (f.mem_fitting _).mp (f.fitting.min'_mem h)
  refine ⟨g, hg, hfit, ?_, ?_⟩
  · have hfind : f.spans.find? (·.1 = f.fitting.min' h) = some g := by
      cases hk : f.spans.find? (·.1 = f.fitting.min' h) with
      | none => simpa [hstart] using find?_eq_none.mp hk g hg
      | some k =>
        have hks := find?_some hk
        rw [f.start_injective (mem_of_find?_eq_some hk) hg (by simpa [hstart] using hks)]
    simp [firstFit, h, hfind]
  · intro k hk hkfit
    rw [hstart]
    exact f.fitting.min'_le _ ((f.mem_fitting _).mpr ⟨k, hk, rfl, hkfit⟩)

theorem firstFit_eq_some {f : FreeSpans place} {o : Nat} (h : f.firstFit = some o) :
    ∃ g ∈ f.spans, place g.1 g.2 = some o ∧
      ∀ k ∈ f.spans, (place k.1 k.2).isSome → g.1 ≤ k.1 := by
  have hne : f.fitting.Nonempty := by
    by_contra hempty
    simp [firstFit, hempty] at h
  obtain ⟨g, hg, _, heq, hmin⟩ := f.firstFit_of_nonempty hne
  exact ⟨g, hg, heq ▸ h, hmin⟩

theorem firstFit_eq_none {f : FreeSpans place} (h : f.firstFit = none) :
    ∀ g ∈ f.spans, place g.1 g.2 = none := by
  intro g hg
  by_contra hsome
  have hne : f.fitting.Nonempty :=
    ⟨g.1, (f.mem_fitting _).mpr ⟨g, hg, rfl, Option.ne_none_iff_isSome.mp hsome⟩⟩
  obtain ⟨k, _, hfit, heq, _⟩ := f.firstFit_of_nonempty hne
  rw [← heq, h] at hfit
  cases hfit

end FreeSpans
end ExpertStreaming.Lib
