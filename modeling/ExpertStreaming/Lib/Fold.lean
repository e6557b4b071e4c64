import Mathlib.Order.Lattice
import Mathlib.Data.List.Basic

/-! # The largest element of a list

A running maximum started at some value bounds that value and every element, and is one of
them.
-/
namespace ExpertStreaming.Lib

theorem le_foldl_max {α : Type} [LinearOrder α] {l : List α} {start a : α}
    (h : a ∈ l ∨ a ≤ start) : a ≤ l.foldl max start := by
  induction l generalizing start with
  | nil => exact h.resolve_left (by simp)
  | cons head rest ih =>
    refine ih ?_
    rcases h with h | h
    · rcases List.mem_cons.mp h with rfl | h
      · exact .inr (le_max_right _ _)
      · exact .inl h
    · exact .inr (le_trans h (le_max_left _ _))

theorem foldl_max_mem {α : Type} [LinearOrder α] (l : List α) (start : α) :
    l.foldl max start = start ∨ l.foldl max start ∈ l := by
  induction l generalizing start with
  | nil => exact .inl rfl
  | cons head rest ih =>
    rw [List.foldl_cons]
    rcases ih (max start head) with heq | hmem
    · rw [heq]
      rcases le_total head start with hle | hle
      · exact .inl (max_eq_left hle)
      · exact .inr (by rw [max_eq_right hle]; exact List.mem_cons_self)
    · exact .inr (List.mem_cons_of_mem _ hmem)

end ExpertStreaming.Lib
