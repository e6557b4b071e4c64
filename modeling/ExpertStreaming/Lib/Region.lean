import ExpertStreaming.Lib.OrdMap
import Mathlib.Data.Finset.Card
import Mathlib.Order.Interval.Finset.Nat

/-! # Byte regions of a bounded address range

Half-open ranges of addresses. Pairwise apart regions inside a range of `cap`
addresses cannot total more than `cap` bytes; this is what bounds an allocator's
counters without recomputing them.
-/
namespace ExpertStreaming.Lib

structure Region where
  off : Nat
  len : Nat
  deriving DecidableEq

namespace Region

def stop (r : Region) : Nat := r.off + r.len

/-- No address belongs to both. -/
def Apart (a b : Region) : Prop := a.stop ≤ b.off ∨ b.stop ≤ a.off

instance (a b : Region) : Decidable (a.Apart b) := by unfold Apart; infer_instance

def Contains (r : Region) (x : Nat) : Prop := r.off ≤ x ∧ x < r.stop

instance (r : Region) (x : Nat) : Decidable (r.Contains x) := by unfold Contains; infer_instance

theorem Apart.symm {a b : Region} (h : a.Apart b) : b.Apart a := Or.symm h

theorem Apart.not_contains {a b : Region} (h : a.Apart b) {x : Nat} (ha : a.Contains x) :
    ¬ b.Contains x := by
  unfold Apart Contains at *; omega

/-- Regions without a common address are apart, once both are inhabited. -/
theorem apart_of_no_common {a b : Region} (ha : 0 < a.len) (hb : 0 < b.len)
    (h : ∀ x, a.Contains x → ¬ b.Contains x) : a.Apart b := by
  have h₁ := h a.off
  have h₂ := h b.off
  unfold Contains Apart stop at *
  omega

/-- The addresses of a list of regions. -/
def cells (l : List Region) : Finset Nat := l.toFinset.biUnion fun r => Finset.Ico r.off r.stop

theorem mem_cells {l x} : x ∈ cells l ↔ ∃ r ∈ l, r.Contains x := by
  simp [cells, Contains]

theorem card_cells {l : List Region} (h : l.Pairwise Apart) :
    (cells l).card = (l.map len).sum := by
  induction l with
  | nil => rfl
  | cons r rest ih =>
    obtain ⟨hr, hrest⟩ := List.pairwise_cons.mp h
    have hdisj : Disjoint (Finset.Ico r.off r.stop) (cells rest) := by
      rw [Finset.disjoint_left]
      intro x hx hc
      obtain ⟨s, hs, hxs⟩ := mem_cells.mp hc
      exact (hr s hs).not_contains (Finset.mem_Ico.mp hx) hxs
    have hsplit : cells (r :: rest) = Finset.Ico r.off r.stop ∪ cells rest := by
      ext x
      simp [cells]
    rw [hsplit, Finset.card_union_of_disjoint hdisj, ih hrest]
    simp [stop]

theorem sum_len_le {cap : Nat} {l : List Region} (h : l.Pairwise Apart)
    (hin : ∀ r ∈ l, r.stop ≤ cap) : (l.map len).sum ≤ cap := by
  rw [← card_cells h]
  calc (cells l).card ≤ (Finset.range cap).card := by
        apply Finset.card_le_card
        intro x hx
        obtain ⟨r, hr, hc⟩ := mem_cells.mp hx
        exact Finset.mem_range.mpr (lt_of_lt_of_le hc.2 (hin r hr))
    _ = cap := Finset.card_range cap

/-- The same bound for the selected bindings of a map, each owning a region. -/
theorem sumBy_len_le {κ ν : Type} [LinearOrder κ] {cap : Nat} (m : OrdMap κ ν)
    (sel : ν → Bool) (region : ν → Region)
    (hapart : ∀ k v k' v', m.find? k = some v → m.find? k' = some v' → k ≠ k' →
      (region v).Apart (region v'))
    (hin : ∀ k v, m.find? k = some v → (region v).stop ≤ cap) :
    m.sumBy (fun _ v => if sel v then (region v).len else 0) ≤ cap := by
  have hsum : m.sumBy (fun _ v => if sel v then (region v).len else 0) =
      (((m.toList.filter fun b => sel b.2).map fun b => region b.2).map len).sum := by
    unfold OrdMap.sumBy
    induction m.toList with
    | nil => rfl
    | cons b rest ih => by_cases hb : sel b.2 <;> simp [hb, ih]
  rw [hsum]
  apply sum_len_le
  · rw [List.pairwise_map]
    refine ((List.Pairwise.and_mem.mp m.sorted).imp ?_).filter _
    rintro ⟨k, v⟩ ⟨k', v'⟩ ⟨hv, hv', hlt⟩
    exact hapart k v k' v' (OrdMap.find?_eq_some.mpr hv) (OrdMap.find?_eq_some.mpr hv') hlt.ne
  · intro r hr
    obtain ⟨b, hb, rfl⟩ := List.mem_map.mp hr
    exact hin b.1 b.2 (OrdMap.find?_eq_some.mpr (List.mem_filter.mp hb).1)

end Region

end ExpertStreaming.Lib
