import Mathlib.Algebra.Order.BigOperators.Group.List
import Mathlib.Algebra.Order.Ring.Nat

/-! # Sums over a fixed table of slots

A pool with a fixed number of slots counts what its slots hold. `total f` adds up
`f` over the slots; replacing one slot changes the total by that slot's share.
-/
namespace ExpertStreaming.Lib
open List

variable {α : Type}

variable {slots : List α} {k : Nat} {a : α} {f : α → Nat}

theorem getElem?_set_cases {j b} (h : (slots.set k b)[j]? = some a) :
    j = k ∧ a = b ∨ j ≠ k ∧ slots[j]? = some a := by
  rw [getElem?_set] at h
  split at h
  next heq =>
    split at h
    · cases h; exact .inl ⟨heq.symm, rfl⟩
    · cases h
  next hne => exact .inr ⟨fun heq => hne heq.symm, h⟩

theorem getElem?_set_self_of_some (h : slots[k]? = some a)
    (b : α) : (slots.set k b)[k]? = some b := by
  obtain ⟨hlt, -⟩ := List.getElem?_eq_some_iff.mp h
  rw [getElem?_set_self hlt]

def total (f : α → Nat) (slots : List α) : Nat := (slots.map f).sum

theorem total_cons (f : α → Nat) (a : α) (slots : List α) :
    total f (a :: slots) = f a + total f slots := by
  rw [total, total, map_cons, sum_cons]

theorem total_append (f : α → Nat) (xs ys : List α) :
    total f (xs ++ ys) = total f xs + total f ys := by
  rw [total, total, total, map_append, sum_append]

theorem total_set (f : α → Nat) (h : slots[k]? = some a)
    (b : α) : total f (slots.set k b) + f a = total f slots + f b := by
  induction slots generalizing k with
  | nil => cases h
  | cons x rest ih =>
    cases k with
    | zero =>
      cases h
      rw [set_cons_zero, total_cons, total_cons]
      omega
    | succ k =>
      have hrest := ih h
      rw [set_cons_succ, total_cons, total_cons]
      omega

theorem total_set_same (f : α → Nat) {b} (h : slots[k]? = some a) (hab : f b = f a) :
    total f (slots.set k b) = total f slots := by
  have hsum := total_set f h b
  omega

theorem le_total (f : α → Nat) (h : slots[k]? = some a) :
    f a ≤ total f slots :=
  single_le_sum (fun _ _ => Nat.zero_le _) _ (mem_map_of_mem (mem_of_getElem? h))

theorem total_congr {g} (h : ∀ a ∈ slots, f a = g a) :
    total f slots = total g slots := by
  rw [total, total, map_congr_left h]

theorem total_eq_zero (h : ∀ a ∈ slots, f a = 0) :
    total f slots = 0 := by
  refine sum_eq_zero fun n hn => ?_
  obtain ⟨a, ha, rfl⟩ := mem_map.mp hn
  exact h a ha

theorem two_le_total {j b} (hj : slots[j]? = some a) (hk : slots[k]? = some b) (hne : j ≠ k) :
    f a + f b ≤ total f slots := by
  induction slots generalizing j k with
  | nil => cases hj
  | cons x rest ih =>
    rw [total_cons]
    cases j with
    | zero =>
      cases hj
      cases k with
      | zero => exact absurd rfl hne
      | succ k =>
        have hle : f b ≤ total f rest := le_total f hk
        omega
    | succ j =>
      cases k with
      | zero =>
        cases hk
        have hle : f a ≤ total f rest := le_total f hj
        omega
      | succ k =>
        have hle := ih (j := j) (k := k) hj hk (by omega)
        omega

end ExpertStreaming.Lib
