import ExpertStreaming.Lib.Word
import Mathlib.Algebra.BigOperators.Group.List.Basic
import Mathlib.Algebra.Order.BigOperators.Group.List
import Mathlib.Data.Nat.GCD.Basic

/-! # Dividing an amount by weights

An amount is divided over parties in proportion to their weights. Shares rounded
down never exceed the amount together; shares rounded up never fall short of it.
-/
namespace ExpertStreaming.Lib

theorem sum_map_mul_right (weights : List Nat) (k : Nat) :
    (weights.map fun w => w * k).sum = weights.sum * k := by
  induction weights with
  | nil => simp
  | cons w rest ih => simp [ih, Nat.add_mul]

/-- Shares rounded down never exceed the amount. -/
theorem sum_floor_shares_le {total divisor : Nat} {weights : List Nat}
    (h : weights.sum ≤ divisor) :
    (weights.map fun w => total * w / divisor).sum ≤ total := by
  rcases Nat.eq_zero_or_pos divisor with rfl | hpos
  · simp
  apply Nat.le_of_mul_le_mul_right _ hpos
  calc (weights.map fun w => total * w / divisor).sum * divisor
      = (weights.map fun w => total * w / divisor * divisor).sum := by
        rw [← sum_map_mul_right, List.map_map]; rfl
    _ ≤ (weights.map fun w => w * total).sum :=
        List.sum_le_sum fun w _ => by rw [Nat.mul_comm w]; exact Nat.div_mul_le_self _ _
    _ = weights.sum * total := sum_map_mul_right weights total
    _ ≤ total * divisor := by rw [Nat.mul_comm]; exact Nat.mul_le_mul_left total h

theorem ceilDiv_le_of_le_mul {n d k} (hd : 0 < d) (h : n ≤ k * d) : n ⌈/⌉ d ≤ k :=
  (ceilDiv_le_iff_le_mul hd).mpr (by rwa [Nat.mul_comm])

theorem le_ceilDiv_mul {n d} (hd : 0 < d) : n ≤ n ⌈/⌉ d * d := by
  rw [Nat.mul_comm]
  exact (ceilDiv_le_iff_le_mul hd).mp (Nat.le_refl _)

theorem mul_ceilDiv_cancel {d} (hd : 0 < d) (k : Nat) : k * d ⌈/⌉ d = k := by
  rw [Nat.mul_comm]
  exact smul_ceilDiv hd k

/-- Shares rounded up never fall short of the whole, rounded up. -/
theorem ceilDiv_sum_le {weights : List Nat} {k d : Nat} (hd : 0 < d) :
    weights.sum * k ⌈/⌉ d ≤ (weights.map fun w => w * k ⌈/⌉ d).sum := by
  apply ceilDiv_le_of_le_mul hd
  calc weights.sum * k = (weights.map fun w => w * k).sum := (sum_map_mul_right weights k).symm
    _ ≤ (weights.map fun w => (w * k ⌈/⌉ d) * d).sum :=
        List.sum_le_sum fun w _ => le_ceilDiv_mul hd
    _ = (weights.map fun w => w * k ⌈/⌉ d).sum * d := by
        rw [← sum_map_mul_right, List.map_map]; rfl

/-- Rounding up twice, by way of another scale, loses nothing. -/
theorem ceilDiv_trans {a b k d e} (hd : 0 < d) (he : 0 < e) (h : a * e ⌈/⌉ d ≤ b) :
    a * k ⌈/⌉ d ≤ b * k ⌈/⌉ e := by
  have hb : a * e ≤ b * d := by
    have := le_ceilDiv_mul (n := a * e) hd
    exact Nat.le_trans this (Nat.mul_le_mul_right d h)
  have hk : b * k ≤ (b * k ⌈/⌉ e) * e := le_ceilDiv_mul he
  apply ceilDiv_le_of_le_mul hd
  apply Nat.le_of_mul_le_mul_right _ he
  calc a * k * e = a * e * k := Nat.mul_right_comm a k e
    _ ≤ b * d * k := Nat.mul_le_mul_right k hb
    _ = b * k * d := Nat.mul_right_comm b d k
    _ ≤ (b * k ⌈/⌉ e) * e * d := Nat.mul_le_mul_right d hk
    _ = (b * k ⌈/⌉ e) * d * e := Nat.mul_right_comm _ e d

/-- A share has a fraction exactly if the reduced divisor does not divide the amount. -/
theorem dvd_mul_iff_div_gcd_dvd {w total n} (h : 0 < total) :
    total ∣ w * n ↔ total / Nat.gcd w total ∣ n := by
  have hg : 0 < Nat.gcd w total := Nat.gcd_pos_of_pos_right w h
  have hcop : Nat.Coprime (total / Nat.gcd w total) (w / Nat.gcd w total) :=
    (Nat.coprime_div_gcd_div_gcd hg).symm
  have hw : Nat.gcd w total * (w / Nat.gcd w total) = w := Nat.mul_div_cancel' (Nat.gcd_dvd_left _ _)
  have ht : Nat.gcd w total * (total / Nat.gcd w total) = total :=
    Nat.mul_div_cancel' (Nat.gcd_dvd_right _ _)
  constructor
  · intro hdvd
    apply hcop.dvd_of_dvd_mul_left
    apply Nat.dvd_of_mul_dvd_mul_left hg
    rwa [ht, ← Nat.mul_assoc, hw]
  · intro hdvd
    have := Nat.mul_dvd_mul_left (Nat.gcd w total) hdvd
    rw [ht] at this
    exact this.trans (Nat.mul_dvd_mul_right (Nat.gcd_dvd_left w total) n)

end ExpertStreaming.Lib
