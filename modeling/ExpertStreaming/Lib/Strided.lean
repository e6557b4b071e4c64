import Mathlib.Algebra.BigOperators.Fin
import Mathlib.Algebra.Order.BigOperators.Group.List
import Mathlib.Algebra.Order.BigOperators.GroupWithZero.List
import Mathlib.Algebra.Order.Ring.Nat
import Mathlib.Data.Fintype.BigOperators
import Mathlib.Order.Interval.Finset.Nat

/-! # Strided blocks

Blocks of one size are addressed by multi-indices: the block of an index lies at the sum of the
index's entries times the strides of their axes. If the axes can be put in an order in which
every stride passes over all that the later axes span, different indices have disjoint blocks.
When the blocks are as many as their span has room for, this order must exist.
-/
namespace ExpertStreaming.Lib

section Strided

variable {ι : Type} {units stride : ι → Nat} {block : Nat}

/-- Where the block of an index lies. -/
def stridedOffset (stride : ι → Nat) (axes : List ι) (index : ι → Nat) : Nat :=
  (axes.map fun a => index a * stride a).sum

/-- The address behind the last block. -/
def stridedSpan (units stride : ι → Nat) (block : Nat) (axes : List ι) : Nat :=
  block + (axes.map fun a => (units a - 1) * stride a).sum

/-- A multi-index of a tensor with these axes. -/
def IsIndex (units : ι → Nat) (axes : List ι) (index : ι → Nat) : Prop :=
  ∀ a ∈ axes, index a < units a

instance (units : ι → Nat) (axes : List ι) (index : ι → Nat) :
    Decidable (IsIndex units axes index) := List.decidableBAll _ _

/-- From the widest axis to the narrowest: every stride that is ever taken passes over the span
of the axes behind it. -/
def Nested (units stride : ι → Nat) (block : Nat) : List ι → Prop
  | [] => True
  | a :: rest =>
    (units a ≤ 1 ∨ stridedSpan units stride block rest ≤ stride a) ∧
      Nested units stride block rest

theorem stridedOffset_cons (a : ι) (rest : List ι) (index : ι → Nat) :
    stridedOffset stride (a :: rest) index =
      index a * stride a + stridedOffset stride rest index := by
  simp [stridedOffset]

theorem stridedSpan_cons (a : ι) (rest : List ι) :
    stridedSpan units stride block (a :: rest) =
      (units a - 1) * stride a + stridedSpan units stride block rest := by
  simp only [stridedSpan, List.map_cons, List.sum_cons]
  omega

variable {axes rest : List ι} {a : ι} {i j : ι → Nat}

theorem stridedOffset_perm {axes'} (h : axes.Perm axes') (index : ι → Nat) :
    stridedOffset stride axes index = stridedOffset stride axes' index :=
  (h.map _).sum_eq

theorem IsIndex.of_cons {index} (h : IsIndex units (a :: rest) index) : IsIndex units rest index :=
  fun b hb => h b (List.mem_cons_of_mem _ hb)

/-- Every block lies within the span. -/
theorem stridedOffset_add_block_le {index} (h : IsIndex units axes index) :
    stridedOffset stride axes index + block ≤ stridedSpan units stride block axes := by
  induction axes with
  | nil => simp [stridedOffset, stridedSpan]
  | cons a rest ih =>
    rw [stridedOffset_cons, stridedSpan_cons]
    have hlast : index a ≤ units a - 1 := Nat.le_sub_one_of_lt (h a List.mem_cons_self)
    have hhead := Nat.mul_le_mul_right (stride a) hlast
    have hrest := ih h.of_cons
    omega

/-- An index with the smaller entry on a nested list's first axis has its block before the other. -/
theorem Nested.before (h : Nested units stride block (a :: rest)) (hi : IsIndex units (a :: rest) i)
    (hj : IsIndex units (a :: rest) j) (hlt : i a < j a) :
    stridedOffset stride (a :: rest) i + block ≤ stridedOffset stride (a :: rest) j := by
  have hunits := hj a List.mem_cons_self
  have hwide : stridedSpan units stride block rest ≤ stride a := by
    rcases h.1 with hone | hwide
    · omega
    · exact hwide
  have hinside : stridedOffset stride rest i + block ≤ stridedSpan units stride block rest :=
    stridedOffset_add_block_le hi.of_cons
  calc stridedOffset stride (a :: rest) i + block
      = i a * stride a + (stridedOffset stride rest i + block) := by
        rw [stridedOffset_cons, Nat.add_assoc]
    _ ≤ i a * stride a + stride a := Nat.add_le_add_left (hinside.trans hwide) _
    _ = (i a + 1) * stride a := (Nat.succ_mul _ _).symm
    _ ≤ j a * stride a := Nat.mul_le_mul_right _ hlt
    _ ≤ stridedOffset stride (a :: rest) j := by
        rw [stridedOffset_cons]
        exact Nat.le_add_right _ _

/-- **Blocks of nested axes do not overlap.** -/
theorem Nested.apart (h : Nested units stride block axes)
    (hi : IsIndex units axes i) (hj : IsIndex units axes j) (hne : ∃ a ∈ axes, i a ≠ j a) :
    stridedOffset stride axes i + block ≤ stridedOffset stride axes j ∨
      stridedOffset stride axes j + block ≤ stridedOffset stride axes i := by
  induction axes with
  | nil =>
    obtain ⟨a, ha, -⟩ := hne
    cases ha
  | cons a rest ih =>
    rcases Nat.lt_trichotomy (i a) (j a) with hlt | heq | hgt
    · exact .inl (h.before hi hj hlt)
    · have hrest : ∃ b ∈ rest, i b ≠ j b := by
        obtain ⟨b, hb, hdiff⟩ := hne
        rcases List.mem_cons.mp hb with rfl | hb
        · exact absurd heq hdiff
        · exact ⟨b, hb, hdiff⟩
      simp only [stridedOffset_cons, heq]
      rcases ih h.2 hi.of_cons hj.of_cons hrest with hbefore | hbehind
      · exact .inl (by omega)
      · exact .inr (by omega)
    · exact .inr (h.before hj hi hgt)

/-- Different indices have disjoint blocks. -/
def BlocksApart (units stride : ι → Nat) (block : Nat) (axes : List ι) : Prop :=
  ∀ i j, IsIndex units axes i → IsIndex units axes j → (∃ a ∈ axes, i a ≠ j a) →
    stridedOffset stride axes i + block ≤ stridedOffset stride axes j ∨
      stridedOffset stride axes j + block ≤ stridedOffset stride axes i

/-! ## Blocks that fill their span -/

theorem stridedSpan_perm {axes'} (h : axes.Perm axes') :
    stridedSpan units stride block axes = stridedSpan units stride block axes' := by
  rw [stridedSpan, stridedSpan, (h.map _).sum_eq]

/-- With its narrowest axis folded into the blocks, a tensor spans the same. -/
theorem stridedSpan_fold (hunits : 0 < units a) (hstride : stride a = block) :
    stridedSpan units stride block (a :: rest) =
      stridedSpan units stride (units a * block) rest := by
  have hmul : (units a - 1) * block + block = units a * block := by
    rw [← Nat.succ_mul, Nat.succ_eq_add_one, Nat.sub_add_cancel hunits]
  rw [stridedSpan_cons, hstride]
  simp only [stridedSpan]
  omega

/-- The folded axis goes behind all others. -/
theorem Nested.unfold {order} (hunits : 0 < units a) (hstride : stride a = block)
    (h : Nested units stride (units a * block) order) :
    Nested units stride block (order ++ [a]) := by
  induction order with
  | nil =>
    refine ⟨.inr ?_, trivial⟩
    simp [stridedSpan, hstride]
  | cons b rest ih =>
    refine ⟨h.1.imp id fun hwide => ?_, ih h.2⟩
    have hspan : stridedSpan units stride block (rest ++ [a]) =
        stridedSpan units stride (units a * block) rest := by
      rw [stridedSpan_perm (List.perm_append_singleton a rest), stridedSpan_fold hunits hstride]
    exact hspan.trans_le hwide

theorem nested_of_short (h : ∀ a ∈ axes, units a ≤ 1) :
    Nested units stride block axes := by
  induction axes with
  | nil => trivial
  | cons a rest ih =>
    exact ⟨.inl (h a List.mem_cons_self), ih fun b hb => h b (List.mem_cons_of_mem _ hb)⟩

theorem one_lt_prod (hunits : ∀ a ∈ axes, 0 < units a)
    (hlong : ∃ a ∈ axes, 1 < units a) : 1 < (axes.map units).prod := by
  obtain ⟨a, ha, hlong⟩ := hlong
  have hpos : 0 < (axes.map units).prod := by
    refine List.prod_pos fun n hn => ?_
    obtain ⟨b, hb, rfl⟩ := List.mem_map.mp hn
    exact hunits b hb
  exact lt_of_lt_of_le hlong
    (Nat.le_of_dvd hpos (List.dvd_prod (List.mem_map_of_mem ha)))

variable [DecidableEq ι]

theorem stridedOffset_single (hnodup : axes.Nodup) (ha : a ∈ axes)
    (k : Nat) : stridedOffset stride axes (Pi.single a k) = k * stride a := by
  have hother : ∀ b, b ≠ a → b ∈ axes → (Pi.single a k : ι → Nat) b * stride b = 0 := by
    intro b hb _
    rw [Pi.single_eq_of_ne hb, Nat.zero_mul]
  rw [stridedOffset, List.sum_map_eq_nsmul_single a _ hother,
    List.count_eq_one_of_mem hnodup ha, one_smul, Pi.single_eq_same]

/-- The larger blocks are as far apart as the smaller ones let them be. -/
theorem BlocksApart.fold (h : BlocksApart units stride block (a :: rest))
    (hnodup : (a :: rest).Nodup) (hunits : 0 < units a) (hblock : 0 < block)
    (hstride : stride a = block) : BlocksApart units stride (units a * block) rest := by
  have hout : ∀ b ∈ rest, b ≠ a := fun b hb heq => (List.nodup_cons.mp hnodup).1 (heq ▸ hb)
  have hset : ∀ (i : ι → Nat) k, stridedOffset stride (a :: rest) (Function.update i a k) =
      k * block + stridedOffset stride rest i := by
    intro i k
    rw [stridedOffset_cons, Function.update_self, hstride]
    congr 1
    refine congrArg List.sum (List.map_congr_left fun b hb => ?_)
    rw [Function.update_of_ne (hout b hb)]
  have hindex : ∀ (i : ι → Nat) k, IsIndex units rest i → k < units a →
      IsIndex units (a :: rest) (Function.update i a k) := by
    intro i k hi hk b hb
    rcases List.mem_cons.mp hb with rfl | hb
    · rw [Function.update_self]
      exact hk
    · rw [Function.update_of_ne (hout b hb)]
      exact hi b hb
  -- a smaller distance would be bridged, up to a part of a block, by steps along `a`
  have hfar : ∀ i j : ι → Nat, IsIndex units rest i → IsIndex units rest j →
      (∃ b ∈ rest, i b ≠ j b) → stridedOffset stride rest i ≤ stridedOffset stride rest j →
      stridedOffset stride rest i + units a * block ≤ stridedOffset stride rest j := by
    intro i j hi hj hne hle
    by_contra hnear
    obtain ⟨d, hd⟩ := Nat.exists_eq_add_of_le hle
    have hk : d / block < units a := (Nat.div_lt_iff_lt_mul hblock).mpr (by omega)
    obtain ⟨b, hb, hdiff⟩ := hne
    have happart := h (Function.update i a (d / block)) (Function.update j a 0)
      (hindex i _ hi hk) (hindex j 0 hj hunits)
      ⟨b, List.mem_cons_of_mem _ hb, by
        rw [Function.update_of_ne (hout b hb), Function.update_of_ne (hout b hb)]
        exact hdiff⟩
    rw [hset, hset, Nat.zero_mul, Nat.zero_add] at happart
    have hlow : d / block * block ≤ d := Nat.div_mul_le_self d block
    have hhigh : d < d / block * block + block := Nat.lt_div_mul_add hblock
    omega
  intro i j hi hj hne
  rcases Nat.le_total (stridedOffset stride rest i) (stridedOffset stride rest j) with hle | hle
  · exact .inl (hfar i j hi hj hne hle)
  · obtain ⟨b, hb, hdiff⟩ := hne
    exact .inr (hfar j i hj hi ⟨b, hb, hdiff.symm⟩ hle)

variable [Fintype ι]

/-- The multi-indices, zero off the axes. -/
def allIndices (units : ι → Nat) (axes : List ι) : Finset (ι → Nat) :=
  Fintype.piFinset fun a => if a ∈ axes then Finset.range (units a) else {0}

theorem isIndex_of_mem (h : i ∈ allIndices units axes) :
    IsIndex units axes i := by
  intro a ha
  have := Fintype.mem_piFinset.mp h a
  rwa [if_pos ha, Finset.mem_range] at this

theorem card_allIndices (h : axes.Nodup) :
    (allIndices units axes).card = (axes.map units).prod := by
  rw [allIndices, Fintype.card_piFinset, ← List.prod_toFinset units h]
  rw [← Finset.prod_subset (Finset.subset_univ axes.toFinset)]
  · refine Finset.prod_congr rfl fun a ha => ?_
    rw [if_pos (List.mem_toFinset.mp ha), Finset.card_range]
  · intro a _ ha
    rw [if_neg (mt List.mem_toFinset.mpr ha), Finset.card_singleton]

/-- Two of these indices that are not the same differ on an axis. -/
theorem exists_ne_of_mem (hi : i ∈ allIndices units axes)
    (hj : j ∈ allIndices units axes) (hne : i ≠ j) : ∃ a ∈ axes, i a ≠ j a := by
  obtain ⟨a, ha⟩ := Function.ne_iff.mp hne
  refine ⟨a, by_contra fun hout => ha ?_, ha⟩
  have hi := Fintype.mem_piFinset.mp hi a
  have hj := Fintype.mem_piFinset.mp hj a
  rw [if_neg hout, Finset.mem_singleton] at hi hj
  rw [hi, hj]

/-- Disjoint blocks that are as many as fit leave no address uncovered. -/
theorem BlocksApart.covers (h : BlocksApart units stride block axes) (hnodup : axes.Nodup)
    (hspan : stridedSpan units stride block axes = block * (axes.map units).prod) {x}
    (hx : x < block * (axes.map units).prod) :
    ∃ i, IsIndex units axes i ∧ stridedOffset stride axes i ≤ x ∧
      x < stridedOffset stride axes i + block := by
  let cover := (allIndices units axes).biUnion fun i =>
    Finset.Ico (stridedOffset stride axes i) (stridedOffset stride axes i + block)
  have hsubset : cover ⊆ Finset.range (block * (axes.map units).prod) := by
    intro y hy
    obtain ⟨i, hi, hy⟩ := Finset.mem_biUnion.mp hy
    have hinside : stridedOffset stride axes i + block ≤ stridedSpan units stride block axes :=
      stridedOffset_add_block_le (isIndex_of_mem hi)
    rw [Finset.mem_Ico] at hy
    rw [Finset.mem_range, ← hspan]
    omega
  have hcard : cover.card = block * (axes.map units).prod := by
    rw [Finset.card_biUnion]
    · simp [card_allIndices hnodup, Nat.mul_comm]
    · intro i hi j hj hne
      refine Finset.disjoint_left.mpr fun y hyi hyj => ?_
      rw [Finset.mem_Ico] at hyi hyj
      have := h i j (isIndex_of_mem hi) (isIndex_of_mem hj) (exists_ne_of_mem hi hj hne)
      omega
  have hall : cover = Finset.range (block * (axes.map units).prod) :=
    Finset.eq_of_subset_of_card_le hsubset (by rw [hcard, Finset.card_range])
  obtain ⟨i, hi, hx⟩ := Finset.mem_biUnion.mp (hall ▸ Finset.mem_range.mpr hx)
  rw [Finset.mem_Ico] at hx
  exact ⟨i, isIndex_of_mem hi, hx⟩

/-- The block after the first is one step along an axis, whose stride is therefore a block. -/
theorem BlocksApart.exists_narrowest (h : BlocksApart units stride block axes)
    (hnodup : axes.Nodup) (hblock : 0 < block) (hunits : ∀ a ∈ axes, 0 < units a)
    (hspan : stridedSpan units stride block axes = block * (axes.map units).prod)
    (hmany : 1 < (axes.map units).prod) : ∃ a ∈ axes, 1 < units a ∧ stride a = block := by
  have hzero : IsIndex units axes (0 : ι → Nat) := fun a ha => hunits a ha
  have hfirst : stridedOffset stride axes (0 : ι → Nat) = 0 := by simp [stridedOffset]
  obtain ⟨i, hi, hbelow, habove⟩ := h.covers hnodup hspan ((lt_mul_iff_one_lt_right hblock).mpr hmany)
  -- the covering block is not the first one, so some entry of its index is positive
  obtain ⟨a, ha, hpos⟩ : ∃ a ∈ axes, 0 < i a * stride a := by
    by_contra hnone
    have : stridedOffset stride axes i = 0 := by
      refine List.sum_eq_zero fun n hn => ?_
      obtain ⟨a, ha, rfl⟩ := List.mem_map.mp hn
      exact Nat.eq_zero_of_not_pos fun hpos => hnone ⟨a, ha, hpos⟩
    omega
  have hentry : 0 < i a := Nat.pos_of_mul_pos_right hpos
  have hlong : 1 < units a := lt_of_le_of_lt hentry (hi a ha)
  have hstep : IsIndex units axes (Pi.single a 1) := by
    intro b hb
    by_cases hba : b = a
    · rw [hba, Pi.single_eq_same]
      exact hlong
    · rw [Pi.single_eq_of_ne hba]
      exact hunits b hb
  have hwide : block ≤ stride a := by
    have happart := h 0 (Pi.single a 1) hzero hstep ⟨a, ha, by simp⟩
    rw [hfirst, stridedOffset_single hnodup ha] at happart
    omega
  have hterm : i a * stride a ≤ stridedOffset stride axes i :=
    List.le_sum_of_mem (List.mem_map_of_mem ha)
  have hone := Nat.mul_le_mul_right (stride a) hentry
  exact ⟨a, ha, hlong, by omega⟩

/-- **Disjoint blocks that fill their span come from nested axes.** -/
theorem BlocksApart.exists_nested (h : BlocksApart units stride block axes)
    (hnodup : axes.Nodup) (hblock : 0 < block) (hunits : ∀ a ∈ axes, 0 < units a)
    (hspan : stridedSpan units stride block axes = block * (axes.map units).prod) :
    ∃ order, order.Perm axes ∧ Nested units stride block order := by
  -- by induction on the number of axes: the narrowest one is folded into the blocks
  induction hn : axes.length generalizing axes block with
  | zero => exact ⟨axes, .refl _, nested_of_short (by simp [List.length_eq_zero_iff.mp hn])⟩
  | succ n ih =>
    by_cases hshort : ∀ a ∈ axes, units a ≤ 1
    · exact ⟨axes, .refl _, nested_of_short hshort⟩
    push Not at hshort
    obtain ⟨a, ha, hlong, hstride⟩ :=
      h.exists_narrowest hnodup hblock hunits hspan (one_lt_prod hunits hshort)
    have hperm : axes.Perm (a :: axes.erase a) := List.perm_cons_erase ha
    have hpos : 0 < units a := hunits a ha
    have happart : BlocksApart units stride block (a :: axes.erase a) := by
      intro i j hi hj hne
      rw [← stridedOffset_perm hperm, ← stridedOffset_perm hperm]
      obtain ⟨b, hb, hdiff⟩ := hne
      exact h i j (fun b hb => hi b (hperm.mem_iff.mp hb)) (fun b hb => hj b (hperm.mem_iff.mp hb))
        ⟨b, hperm.mem_iff.mpr hb, hdiff⟩
    have hfolded : stridedSpan units stride (units a * block) (axes.erase a) =
        units a * block * ((axes.erase a).map units).prod := by
      rw [← stridedSpan_fold hpos hstride, ← stridedSpan_perm hperm, hspan,
        (hperm.map units).prod_eq, List.map_cons, List.prod_cons, ← Nat.mul_assoc,
        Nat.mul_comm block]
    obtain ⟨order, horder, hnested⟩ := ih (happart.fold (hperm.nodup_iff.mp hnodup) hpos hblock hstride)
      (hnodup.erase a) (Nat.mul_pos hpos hblock)
      (fun b hb => hunits b (List.mem_of_mem_erase hb)) hfolded
      (by rw [List.length_erase_of_mem ha, hn, Nat.add_sub_cancel])
    refine ⟨order ++ [a], ?_, hnested.unfold hpos hstride⟩
    exact (List.perm_append_singleton a order).trans ((horder.cons a).trans hperm.symm)

end Strided

end ExpertStreaming.Lib
