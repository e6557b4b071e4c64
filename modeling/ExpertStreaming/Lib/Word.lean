import Mathlib.Algebra.Order.Floor.Div
import Mathlib.Data.Nat.ModEq

/-! # Unsigned 64-bit arithmetic

Counters and byte amounts of the source are `uint64_t`, token counts are `uint32_t`.
A word is a natural number here and every operation that can wrap says so. The
lemmas say when it does not, and what the checked operations accept.
-/
namespace ExpertStreaming.Lib

/-- `UINT64_MAX`. -/
def u64Max : Nat := 2 ^ 64 - 1

/-- `UINT32_MAX`. -/
def u32Max : Nat := 2 ^ 32 - 1

/-- `a - b` in `uint64_t`, for `a` and `b` below `2 ^ 64`. -/
def u64Sub (a b : Nat) : Nat := if b ≤ a then a - b else a + 2 ^ 64 - b

variable {a b value r : Nat}

theorem u64Sub_of_le (h : b ≤ a) : u64Sub a b = a - b := if_pos h

/-- `a - b` in `uint32_t`, for `a` and `b` below `2 ^ 32`. -/
def u32Sub (a b : Nat) : Nat := if b ≤ a then a - b else a + 2 ^ 32 - b

theorem u32Sub_of_le (h : b ≤ a) : u32Sub a b = a - b := if_pos h

/-- `a + b` in `uint64_t`. -/
def u64Add (a b : Nat) : Nat := (a + b) % 2 ^ 64

theorem u64Add_of_le (h : a + b ≤ u64Max) : u64Add a b = a + b :=
  Nat.mod_eq_of_lt (by unfold u64Max at h; omega)

/-- Addition that fails where the sum does not fit 64 bits. -/
def addChecked (value add : Nat) : Option Nat :=
  if u64Max - value < add then none else some (value + add)

theorem addChecked_eq_some {add} (h : value ≤ u64Max) :
    addChecked value add = some r ↔ value + add = r ∧ r ≤ u64Max := by
  unfold addChecked
  split
  · simp only [reduceCtorEq, false_iff, not_and]
    omega
  · simp only [Option.some.injEq]
    omega

/-- Add a list of amounts to `value` one after another. -/
def sumChecked : Nat → List Nat → Option Nat
  | value, [] => some value
  | value, add :: rest => (addChecked value add).bind fun value => sumChecked value rest

theorem sumChecked_eq_some {amounts} (h : value ≤ u64Max) :
    sumChecked value amounts = some r ↔ value + amounts.sum = r ∧ r ≤ u64Max := by
  induction amounts generalizing value with
  | nil =>
    simp only [sumChecked, Option.some.injEq, List.sum_nil, Nat.add_zero]
    omega
  | cons add rest ih =>
    simp only [sumChecked, Option.bind_eq_some_iff, List.sum_cons]
    constructor
    · rintro ⟨next, hnext, hrest⟩
      obtain ⟨rfl, hle⟩ := (addChecked_eq_some h).mp hnext
      have := (ih hle).mp hrest
      omega
    · rintro ⟨hsum, hle⟩
      exact ⟨value + add, (addChecked_eq_some h).mpr ⟨rfl, by omega⟩,
        (ih (by omega)).mpr ⟨by omega, hle⟩⟩

/-- An accepted sum is the sum, whatever the amounts. -/
theorem add_of_addChecked {add} (h : addChecked value add = some r) :
    r = value + add := by
  unfold addChecked at h
  split at h
  · cases h
  · exact (Option.some.inj h).symm

theorem sum_of_sumChecked {amounts} (h : sumChecked value amounts = some r) :
    r = value + amounts.sum := by
  induction amounts generalizing value with
  | nil =>
    rw [List.sum_nil, Nat.add_zero]
    exact (Option.some.inj h).symm
  | cons add rest ih =>
    simp only [sumChecked, Option.bind_eq_some_iff] at h
    obtain ⟨next, hnext, hrest⟩ := h
    rw [ih hrest, add_of_addChecked hnext, List.sum_cons, Nat.add_assoc]

/-- Multiplication that stops at `UINT64_MAX`. -/
def mulSaturated (a b : Nat) : Nat :=
  if a ≠ 0 ∧ u64Max / a < b then u64Max else a * b

/-- The 128-bit product of two words divided and cut to 64 bits. -/
def mulDivFloor (a b divisor : Nat) : Nat := a * b / divisor % 2 ^ 64

theorem mulDivFloor_of_le {divisor} (hb : b ≤ divisor) (ha : a ≤ u64Max) :
    mulDivFloor a b divisor = a * b / divisor := by
  apply Nat.mod_eq_of_lt
  have hle : a * b / divisor ≤ a :=
    Nat.div_le_of_le_mul (by rw [Nat.mul_comm divisor]; exact Nat.mul_le_mul_left a hb)
  unfold u64Max at ha
  omega

/-- `a*b/divisor` rounded up, without a 128-bit product: the quotient and the
remainder of `a` are scaled apart. -/
def mulDivCeilChecked (a b divisor : Nat) : Option Nat :=
  if divisor = 0 then none
  else
    let whole := a / divisor
    let remainder := a % divisor
    if b ≠ 0 ∧ u64Max / b < whole then none
    else
      let remainderProduct := remainder * b % 2 ^ 64
      let rounded := remainderProduct / divisor + if remainderProduct % divisor ≠ 0 then 1 else 0
      addChecked (whole * b) rounded

/-- A quotient with one added where there is a remainder is the quotient rounded up. -/
theorem div_add_one_eq_ceilDiv {n d} (hd : 0 < d) :
    (n / d + if n % d ≠ 0 then 1 else 0) = n ⌈/⌉ d := by
  rw [Nat.ceilDiv_eq_add_pred_div]
  have hn := Nat.div_add_mod n d
  have hlt := Nat.mod_lt n hd
  by_cases hz : n % d = 0
  · rw [if_neg (by simpa using hz), Nat.add_zero]
    have : n + d - 1 = (d - 1) + d * (n / d) := by omega
    rw [this, Nat.add_mul_div_left _ _ hd, Nat.div_eq_of_lt (show d - 1 < d by omega),
      Nat.zero_add]
  · rw [if_pos hz]
    have : n + d - 1 = (n % d - 1) + d * (n / d + 1) := by rw [Nat.mul_add]; omega
    rw [this, Nat.add_mul_div_left _ _ hd, Nat.div_eq_of_lt (show n % d - 1 < d by omega),
      Nat.zero_add]

theorem mul_ceilDiv_add {d} (hd : 0 < d) (k n : Nat) :
    (d * k + n) ⌈/⌉ d = k + n ⌈/⌉ d := by
  rw [Nat.ceilDiv_eq_add_pred_div, Nat.ceilDiv_eq_add_pred_div]
  have : d * k + n + d - 1 = (n + d - 1) + d * k := by omega
  rw [this, Nat.add_mul_div_left _ _ hd, Nat.add_comm]

/-- **What the checked scaling accepts, it computes exactly.** -/
theorem mulDivCeilChecked_spec {divisor} (hb : b ≤ u32Max) (hd : divisor ≤ u32Max)
    (h : mulDivCeilChecked a b divisor = some r) : r = a * b ⌈/⌉ divisor := by
  simp only [mulDivCeilChecked] at h
  split at h
  · cases h
  next hzero =>
  split at h
  · cases h
  next hfits =>
  have hpos : 0 < divisor := Nat.pos_of_ne_zero hzero
  -- remainder and factor are both below 2^32, so their product is exact
  have hexact : a % divisor * b % 2 ^ 64 = a % divisor * b := by
    apply Nat.mod_eq_of_lt
    have hlt := Nat.mod_lt a hpos
    calc a % divisor * b ≤ u32Max * u32Max := Nat.mul_le_mul (by omega) hb
      _ < 2 ^ 64 := by decide
  have hwhole : a / divisor * b ≤ u64Max := by
    by_cases hb0 : b = 0
    · simp [hb0]
    · have hle : a / divisor ≤ u64Max / b := by
        by_contra hgt
        exact hfits ⟨hb0, by omega⟩
      exact Nat.le_trans (Nat.mul_le_mul_right b hle) (Nat.div_mul_le_self _ _)
  rw [hexact, div_add_one_eq_ceilDiv hpos] at h
  obtain ⟨rfl, -⟩ := (addChecked_eq_some hwhole).mp h
  rw [← mul_ceilDiv_add hpos]
  congr 1
  conv_rhs => rw [← Nat.div_add_mod a divisor, Nat.add_mul]
  rw [Nat.mul_assoc]

end ExpertStreaming.Lib
