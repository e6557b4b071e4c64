import Mathlib.Order.Basic
import Mathlib.Algebra.Order.Ring.Nat
import Mathlib.Algebra.BigOperators.Group.List.Basic
import Mathlib.Algebra.Order.BigOperators.Group.List

/-! # Ordered maps as strictly sorted association lists

The value of an ordered tree map is its key-sorted list of bindings; the shape
of the tree is not observable. The strict order is part of the type, so a
duplicate key cannot be built and iteration order needs no invariant.
-/
namespace ExpertStreaming.Lib
open List

/-- Finite map, iterated in increasing key order. -/
structure OrdMap (κ : Type) (ν : Type) [LinearOrder κ] where
  toList : List (κ × ν)
  sorted : toList.Pairwise (fun a b => a.1 < b.1)

namespace OrdMap

variable {κ ν : Type} [LinearOrder κ]

def empty : OrdMap κ ν := ⟨[], .nil⟩

instance : Inhabited (OrdMap κ ν) := ⟨empty⟩

def findList (k : κ) : List (κ × ν) → Option ν
  | [] => none
  | (k', v) :: rest => if k' = k then some v else findList k rest

def insertList (k : κ) (v : ν) : List (κ × ν) → List (κ × ν)
  | [] => [(k, v)]
  | (k', v') :: rest =>
    if k < k' then (k, v) :: (k', v') :: rest
    else if k = k' then (k, v) :: rest
    else (k', v') :: insertList k v rest

def find? (m : OrdMap κ ν) (k : κ) : Option ν := findList k m.toList

def contains (m : OrdMap κ ν) (k : κ) : Bool := (m.find? k).isSome

def isEmpty (m : OrdMap κ ν) : Bool := m.toList.isEmpty

def size (m : OrdMap κ ν) : Nat := m.toList.length

def values (m : OrdMap κ ν) : List ν := m.toList.map Prod.snd

def keys (m : OrdMap κ ν) : List κ := m.toList.map Prod.fst

variable {k : κ} {v : ν} {l : List (κ × ν)} {m : OrdMap κ ν} {ν' : Type} {f g : κ → ν → Nat}

theorem findList_eq_some_of_sorted
    (hs : l.Pairwise (fun a b => a.1 < b.1)) : findList k l = some v ↔ (k, v) ∈ l := by
  induction l with
  | nil => simp [findList]
  | cons b rest ih =>
    obtain ⟨k', v'⟩ := b
    obtain ⟨hlt, hrest⟩ := pairwise_cons.mp hs
    by_cases hk : k' = k
    · subst hk
      have hfresh : (k', v) ∉ rest := fun hm => (hlt (k', v) hm).false
      simp [findList, hfresh, eq_comm]
    · simp [findList, hk, ih hrest, Ne.symm hk]

theorem mem_insertList {b} (hb : b ∈ insertList k v l) : b = (k, v) ∨ b ∈ l := by
  induction l with
  | nil => simpa [insertList] using hb
  | cons c rest ih =>
    obtain ⟨k', v'⟩ := c
    simp only [insertList] at hb
    split at hb
    · simpa using hb
    · split at hb
      · rcases mem_cons.mp hb with h | h
        · exact .inl h
        · exact .inr (mem_cons_of_mem _ h)
      · rcases mem_cons.mp hb with h | h
        · exact .inr (by simp [h])
        · exact (ih h).imp_right (mem_cons_of_mem _)

theorem insertList_sorted (k : κ) (v : ν) (hs : l.Pairwise (fun a b => a.1 < b.1)) :
    (insertList k v l).Pairwise (fun a b => a.1 < b.1) := by
  induction l with
  | nil => simp [insertList]
  | cons c rest ih =>
    obtain ⟨k', v'⟩ := c
    obtain ⟨hlt, hrest⟩ := pairwise_cons.mp hs
    simp only [insertList]
    split
    · rename_i hk
      refine pairwise_cons.mpr ⟨?_, hs⟩
      intro b hb
      rcases mem_cons.mp hb with rfl | hb
      · exact hk
      · exact hk.trans (hlt b hb)
    · rename_i hk
      split
      · rename_i he
        subst he
        exact pairwise_cons.mpr ⟨hlt, hrest⟩
      · rename_i he
        refine pairwise_cons.mpr ⟨?_, ih hrest⟩
        intro b hb
        rcases mem_insertList hb with rfl | hb
        · exact lt_of_le_of_ne (not_lt.mp hk) (Ne.symm he)
        · exact hlt b hb

/-- Assignment through the key: an existing binding is replaced. -/
def insert (m : OrdMap κ ν) (k : κ) (v : ν) : OrdMap κ ν :=
  ⟨insertList k v m.toList, insertList_sorted k v m.sorted⟩

/-- Insertion that keeps an existing binding. -/
def emplace (m : OrdMap κ ν) (k : κ) (v : ν) : OrdMap κ ν :=
  if m.contains k then m else m.insert k v

def erase (m : OrdMap κ ν) (k : κ) : OrdMap κ ν :=
  ⟨m.toList.filter (fun b => b.1 ≠ k), m.sorted.filter _⟩

def mapValues {ν' : Type} (f : ν → ν') (m : OrdMap κ ν) : OrdMap κ ν' :=
  ⟨m.toList.map fun b => (b.1, f b.2), by
    simpa [List.pairwise_map] using m.sorted⟩

/-- The binding with the largest key. -/
def last? (m : OrdMap κ ν) : Option (κ × ν) := m.toList.getLast?

def sumBy (f : κ → ν → Nat) (m : OrdMap κ ν) : Nat := (m.toList.map fun b => f b.1 b.2).sum

theorem find?_eq_some :
    m.find? k = some v ↔ (k, v) ∈ m.toList :=
  findList_eq_some_of_sorted m.sorted

/-- Maps are determined by their lookups. -/
theorem ext_find? {m'} (h : ∀ k, m.find? k = m'.find? k) : m = m' := by
  have hnodup : ∀ m : OrdMap κ ν, m.toList.Nodup := fun m =>
    m.sorted.imp fun {a b} hlt he => by rw [he] at hlt; exact hlt.false
  have hperm : m.toList.Perm m'.toList := by
    rw [perm_ext_iff_of_nodup (hnodup m) (hnodup m')]
    intro b
    rw [← find?_eq_some, ← find?_eq_some, h]
  have hlist : m.toList = m'.toList :=
    hperm.eq_of_pairwise (fun a b _ _ hab hba => absurd (hab.trans hba) (lt_irrefl _))
      m.sorted m'.sorted
  cases m; cases m'; cases hlist; rfl

@[simp] theorem find?_empty (k : κ) : (empty : OrdMap κ ν).find? k = none := rfl

@[simp] theorem toList_empty : (empty : OrdMap κ ν).toList = [] := rfl

@[simp] theorem sumBy_empty (f : κ → ν → Nat) : (empty : OrdMap κ ν).sumBy f = 0 := rfl

theorem findList_insertList (k k' : κ) (v : ν) (l : List (κ × ν)) :
    findList k' (insertList k v l) = if k' = k then some v else findList k' l := by
  induction l with
  | nil => simp [insertList, findList, eq_comm]
  | cons c rest ih =>
    obtain ⟨k₁, v₁⟩ := c
    simp only [insertList]
    split
    · simp [findList, eq_comm]
    · split
      · rename_i he
        subst he
        by_cases hk : k' = k
        · simp [findList, hk]
        · simp [findList, hk, Ne.symm hk]
      · rename_i he
        simp only [findList, ih]
        by_cases hk : k₁ = k'
        · simp [hk, show k' ≠ k by rintro rfl; exact he hk.symm]
        · simp [hk]

theorem find?_insert (m : OrdMap κ ν) (k k' : κ) (v : ν) :
    (m.insert k v).find? k' = if k' = k then some v else m.find? k' :=
  findList_insertList k k' v m.toList

@[simp] theorem find?_insert_self (m : OrdMap κ ν) (k : κ) (v : ν) :
    (m.insert k v).find? k = some v := by simp [find?_insert]

theorem find?_insert_of_ne (m : OrdMap κ ν) {k'} (v : ν) (h : k' ≠ k) :
    (m.insert k v).find? k' = m.find? k' := by simp [find?_insert, h]

theorem find?_emplace (m : OrdMap κ ν) (k k' : κ) (v : ν) :
    (m.emplace k v).find? k' =
      if k' = k ∧ m.find? k = none then some v else m.find? k' := by
  unfold emplace contains
  cases hk : m.find? k with
  | none => simp [find?_insert]
  | some w => simp

theorem find?_erase (m : OrdMap κ ν) (k k' : κ) :
    (m.erase k).find? k' = if k' = k then none else m.find? k' := by
  apply Option.ext
  intro v
  rw [find?_eq_some]
  by_cases h : k' = k
  · simp [erase, h]
  · simp [erase, h, find?_eq_some]

@[simp] theorem find?_erase_self (m : OrdMap κ ν) (k : κ) : (m.erase k).find? k = none := by
  simp [find?_erase]

theorem find?_mapValues (f : ν → ν') (m : OrdMap κ ν) (k : κ) :
    (m.mapValues f).find? k = (m.find? k).map f := by
  obtain ⟨l, hs⟩ := m
  simp only [find?, mapValues]
  induction l with
  | nil => rfl
  | cons b rest ih =>
    have := ih (pairwise_cons.mp hs).2
    by_cases hk : b.1 = k <;> simp [findList, hk, this]

theorem mem_values : v ∈ m.values ↔ ∃ k, m.find? k = some v := by
  simp only [values, mem_map, find?_eq_some]
  constructor
  · rintro ⟨⟨k, v'⟩, hm, rfl⟩; exact ⟨k, hm⟩
  · rintro ⟨k, hm⟩; exact ⟨(k, v), hm, rfl⟩

theorem isEmpty_iff : m.isEmpty = true ↔ ∀ k, m.find? k = none := by
  obtain ⟨l, hs⟩ := m
  cases l with
  | nil => simp [isEmpty, find?, findList]
  | cons b rest =>
    simp only [isEmpty, isEmpty_cons, Bool.false_eq_true, false_iff, not_forall]
    exact ⟨b.1, by simp [find?, findList]⟩

/-! ## Sums over the bindings -/

theorem sumBy_insert (f : κ → ν → Nat) (v : ν)
    (h : m.find? k = none) : (m.insert k v).sumBy f = f k v + m.sumBy f := by
  obtain ⟨l, hs⟩ := m
  simp only [find?, insert, sumBy] at h ⊢
  clear hs
  induction l with
  | nil => simp [insertList]
  | cons c rest ih =>
    obtain ⟨k', v'⟩ := c
    by_cases hk : k' = k
    · simp [findList, hk] at h
    · simp only [findList, hk, if_false] at h
      simp only [insertList, Ne.symm hk, if_false]
      split
      · simp
      · simp [ih h]; omega

theorem sumBy_erase (f : κ → ν → Nat)
    (h : m.find? k = some v) : m.sumBy f = f k v + (m.erase k).sumBy f := by
  obtain ⟨l, hs⟩ := m
  simp only [find?, erase, sumBy] at h ⊢
  induction l with
  | nil => simp [findList] at h
  | cons c rest ih =>
    obtain ⟨k', v'⟩ := c
    obtain ⟨hlt, hrest⟩ := pairwise_cons.mp hs
    by_cases hk : k' = k
    · subst hk
      have hv : v' = v := by simpa [findList] using h
      have hkeep : rest.filter (fun b => decide (b.1 ≠ k')) = rest := by
        apply filter_eq_self.mpr
        intro b hb
        simpa using (hlt b hb).ne'
      simp only [filter_cons, ne_eq, not_true_eq_false, decide_false,
        Bool.false_eq_true, if_false, map_cons, sum_cons, hv]
      rw [show (rest.filter fun b => decide ¬b.1 = k') = rest from hkeep]
    · simp only [findList, hk, if_false] at h
      have := ih hrest h
      simp only [filter_cons, ne_eq, hk, not_false_eq_true, decide_true, if_true,
        map_cons, sum_cons] at this ⊢
      omega

theorem erase_of_none (h : m.find? k = none) : m.erase k = m := by
  apply ext_find?
  intro k'
  rw [find?_erase]
  split
  next he => rw [he, h]
  · rfl

theorem erase_insert (m : OrdMap κ ν) (k : κ) (v : ν) : (m.insert k v).erase k = m.erase k := by
  apply ext_find?
  intro k'
  rw [find?_erase, find?_erase, find?_insert]
  split <;> rfl

theorem insert_insert (m : OrdMap κ ν) (k : κ) (v v' : ν) :
    (m.insert k v).insert k v' = m.insert k v' := by
  apply ext_find?
  intro k'
  rw [find?_insert, find?_insert, find?_insert]
  split <;> rfl

theorem insert_erase_comm (m : OrdMap κ ν) {k'} (v : ν) (h : k ≠ k') :
    (m.insert k v).erase k' = (m.erase k').insert k v := by
  apply ext_find?
  intro x
  rw [find?_erase, find?_insert, find?_insert, find?_erase]
  split
  next hx => rw [if_neg (fun he => h (he.symm.trans hx))]
  · rfl

/-- Assigning through a key: its old contribution leaves and its new one enters. -/
theorem sumBy_insert_erase (f : κ → ν → Nat) (m : OrdMap κ ν) (k : κ) (v : ν) :
    (m.insert k v).sumBy f = f k v + (m.erase k).sumBy f := by
  rw [sumBy_erase f (find?_insert_self m k v), erase_insert]

theorem sumBy_congr (h : ∀ k v, m.find? k = some v → f k v = g k v) : m.sumBy f = m.sumBy g := by
  unfold sumBy
  congr 1
  apply map_congr_left
  intro b hb
  exact h b.1 b.2 (find?_eq_some.mpr hb)

/-- Changing the weight of one binding changes the sum by exactly that. -/
theorem sumBy_change
    (h : m.find? k = some v) (hother : ∀ k' v', m.find? k' = some v' → k' ≠ k → f k' v' = g k' v') :
    m.sumBy f + g k v = m.sumBy g + f k v := by
  rw [sumBy_erase f h, sumBy_erase g h]
  have : (m.erase k).sumBy f = (m.erase k).sumBy g := by
    apply sumBy_congr
    intro k' v' hf
    rw [find?_erase] at hf
    split at hf
    · cases hf
    · exact hother k' v' hf ‹_›
  omega

theorem le_sumBy (f : κ → ν → Nat) (h : m.find? k = some v) : f k v ≤ m.sumBy f := by
  rw [sumBy_erase f h]; omega

theorem sumBy_eq_zero (h : ∀ k v, m.find? k = some v → f k v = 0) : m.sumBy f = 0 := by
  unfold sumBy
  apply sum_eq_zero
  intro x hx
  obtain ⟨b, hb, rfl⟩ := mem_map.mp hx
  exact h b.1 b.2 (find?_eq_some.mpr hb)

/-! ## Updates of every value -/

/-- Every value replaced by a function of its key and itself. -/
def mapWithKey {ν' : Type} (f : κ → ν → ν') (m : OrdMap κ ν) : OrdMap κ ν' :=
  ⟨m.toList.map fun b => (b.1, f b.1 b.2), by simpa [List.pairwise_map] using m.sorted⟩

/-- The value under one key replaced, if there is one. -/
def modify (m : OrdMap κ ν) (k : κ) (f : ν → ν) : OrdMap κ ν :=
  m.mapWithKey fun k' v => if k' = k then f v else v

theorem find?_mapWithKey (f : κ → ν → ν') (m : OrdMap κ ν) (k : κ) :
    (m.mapWithKey f).find? k = (m.find? k).map (f k) := by
  cases h : m.find? k with
  | some v =>
    exact find?_eq_some.mpr (mem_map.mpr ⟨(k, v), find?_eq_some.mp h, rfl⟩)
  | none =>
    by_contra hne
    obtain ⟨v, hv⟩ := Option.ne_none_iff_exists'.mp hne
    obtain ⟨b, hb, heq⟩ := mem_map.mp (find?_eq_some.mp hv)
    obtain rfl : b.1 = k := congrArg Prod.fst heq
    rw [find?_eq_some.mpr hb] at h
    cases h

theorem mapWithKey_mapWithKey {ν'' : Type} (f : κ → ν → ν') (g : κ → ν' → ν'')
    (m : OrdMap κ ν) : (m.mapWithKey f).mapWithKey g = m.mapWithKey fun k v => g k (f k v) := by
  apply ext_find?
  intro k
  rw [find?_mapWithKey, find?_mapWithKey, find?_mapWithKey, Option.map_map]
  rfl

theorem mapWithKey_congr {f g : κ → ν → ν'}
    (h : ∀ k v, m.find? k = some v → f k v = g k v) : m.mapWithKey f = m.mapWithKey g := by
  apply ext_find?
  intro k
  rw [find?_mapWithKey, find?_mapWithKey]
  cases hk : m.find? k with
  | none => rfl
  | some v => simp [h k v hk]

theorem mapWithKey_id {f} (h : ∀ k v, m.find? k = some v → f k v = v) : m.mapWithKey f = m := by
  apply ext_find?
  intro k
  rw [find?_mapWithKey]
  cases hk : m.find? k with
  | none => rfl
  | some v => simp [h k v hk]

theorem mapWithKey_insert (f : κ → ν → ν') (m : OrdMap κ ν) (k : κ) (v : ν) :
    (m.insert k v).mapWithKey f = (m.mapWithKey f).insert k (f k v) := by
  apply ext_find?
  intro k'
  rw [find?_mapWithKey, find?_insert, find?_insert, find?_mapWithKey]
  split
  next h => rw [h]; rfl
  · rfl

theorem sumBy_mapWithKey (f : κ → ν → ν') (g : κ → ν' → Nat) (m : OrdMap κ ν) :
    (m.mapWithKey f).sumBy g = m.sumBy fun k v => g k (f k v) := by
  simp [sumBy, mapWithKey, Function.comp_def]

theorem sumBy_add (f g : κ → ν → Nat) (m : OrdMap κ ν) :
    m.sumBy (fun k v => f k v + g k v) = m.sumBy f + m.sumBy g := by
  simp [sumBy, sum_map_add]

theorem sumBy_le (h : ∀ k v, m.find? k = some v → f k v ≤ g k v) : m.sumBy f ≤ m.sumBy g := by
  apply sum_le_sum
  intro b hb
  exact h b.1 b.2 (find?_eq_some.mpr hb)

/-- A weight on the keys of a list, each listed once, sums to the list's own sum. -/
theorem sumBy_keys (f : κ → ν → Nat) (g : κ → Nat) {keys : List κ}
    (hnodup : keys.Nodup) (hf : ∀ k ∈ keys, ∃ v, m.find? k = some v ∧ f k v = g k) :
    m.sumBy (fun k v => if k ∈ keys then f k v else 0) = (keys.map g).sum := by
  induction keys with
  | nil => exact sumBy_eq_zero fun k v _ => by simp
  | cons key rest ih =>
    obtain ⟨hnew, hnodup⟩ := nodup_cons.mp hnodup
    obtain ⟨v, hv, hweight⟩ := hf key (by simp)
    have hrest := ih hnodup fun k hk => hf k (mem_cons_of_mem _ hk)
    have hchange := sumBy_change (f := fun k v => if k ∈ key :: rest then f k v else 0)
      (g := fun k v => if k ∈ rest then f k v else 0) hv (by
        intro k' v' _ hne
        simp [hne])
    simp only [hnew, mem_cons_self, if_true, if_false] at hchange
    rw [map_cons, sum_cons]
    omega

theorem nodup_keys (m : OrdMap κ ν) : m.keys.Nodup :=
  pairwise_map.mpr (m.sorted.imp ne_of_lt)

theorem mem_keys : k ∈ m.keys ↔ m.contains k = true := by
  unfold keys contains
  rw [Option.isSome_iff_exists, mem_map]
  constructor
  · rintro ⟨b, hb, rfl⟩
    exact ⟨b.2, find?_eq_some.mpr hb⟩
  · rintro ⟨v, hv⟩
    exact ⟨(k, v), find?_eq_some.mp hv, rfl⟩

/-! ## Cutting off -/

/-- The entries with keys below a bound. -/
def below (m : OrdMap κ ν) (bound : κ) : OrdMap κ ν :=
  ⟨m.toList.filter fun b => b.1 < bound, m.sorted.filter _⟩

theorem find?_below (m : OrdMap κ ν) (bound k : κ) :
    (m.below bound).find? k = if k < bound then m.find? k else none := by
  apply Option.ext
  intro v
  rw [find?_eq_some]
  by_cases h : k < bound
  · simp [below, h, find?_eq_some]
  · simp [below, h]

/-! ## Selecting and changing -/

/-- Every value replaced by what a function makes of it, or dropped. -/
def filterMapWithKey {ν' : Type} (f : κ → ν → Option ν') (m : OrdMap κ ν) : OrdMap κ ν' :=
  ⟨m.toList.filterMap fun b => (f b.1 b.2).map fun v => (b.1, v), by
    refine m.sorted.filterMap _ fun a a' hlt b hb b' hb' => ?_
    obtain ⟨v, -, rfl⟩ := Option.map_eq_some_iff.mp hb
    obtain ⟨v', -, rfl⟩ := Option.map_eq_some_iff.mp hb'
    exact hlt⟩

theorem find?_filterMapWithKey (f : κ → ν → Option ν') (m : OrdMap κ ν) (k : κ) :
    (m.filterMapWithKey f).find? k = (m.find? k).bind (f k) := by
  apply Option.ext
  intro v
  rw [find?_eq_some, Option.bind_eq_some_iff]
  unfold filterMapWithKey
  rw [mem_filterMap]
  constructor
  · rintro ⟨b, hb, heq⟩
    obtain ⟨w, hw, heq⟩ := Option.map_eq_some_iff.mp heq
    cases heq
    exact ⟨b.2, find?_eq_some.mpr hb, hw⟩
  · rintro ⟨w, hw, hv⟩
    exact ⟨(k, w), find?_eq_some.mp hw, by simp [hv]⟩

/-- The last entry has the largest key. -/
theorem last?_eq_some (h : m.last? = some (k, v)) :
    m.find? k = some v ∧ ∀ k' v', m.find? k' = some v' → k' ≤ k := by
  obtain ⟨front, hfront⟩ := getLast?_eq_some_iff.mp h
  refine ⟨find?_eq_some.mpr (by rw [hfront]; simp), fun k' v' hk' => ?_⟩
  have hmem := find?_eq_some.mp hk'
  have hsorted := m.sorted
  rw [hfront] at hmem hsorted
  rcases mem_append.mp hmem with hmem | hmem
  · exact le_of_lt ((pairwise_append.mp hsorted).2.2 _ hmem (k, v) (by simp))
  · cases mem_singleton.mp hmem
    exact le_refl _

theorem last?_eq_none (h : m.last? = none) (k : κ) : m.find? k = none := by
  have hnil : m.toList = [] := getLast?_eq_none_iff.mp h
  unfold find?
  rw [hnil]
  rfl

theorem find?_foldl_emplace (l : List (κ × ν)) (m : OrdMap κ ν) (k : κ) :
    (l.foldl (fun m b => m.emplace b.1 b.2) m).find? k = (m.find? k).or (findList k l) := by
  induction l generalizing m with
  | nil => simp [findList]
  | cons b rest ih =>
    obtain ⟨k', v'⟩ := b
    rw [foldl_cons, ih, find?_emplace]
    by_cases hk : k = k'
    · subst hk
      cases hm : m.find? k with
      | none => simp [findList]
      | some w => simp
    · simp [findList, hk, Ne.symm hk]

end OrdMap

end ExpertStreaming.Lib
