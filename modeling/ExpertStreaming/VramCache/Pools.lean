import ExpertStreaming.Lib.Fold
import ExpertStreaming.Lib.Word
import Mathlib.Algebra.Order.BigOperators.Group.List
import Mathlib.Algebra.Order.Ring.Nat
import Mathlib.Data.Fintype.Pi
import Mathlib.Order.Bounds.Basic

/-! # The VRAM expert cache: packed pools

With layout packing the slots of a device are divided into pools, one for each set of component
strides, and the pools share the capacity in proportion to their experts. `plan_pools` finds the
largest share by a binary search over `fit`, which computes in `int` and `uint64_t`. Where `fit`
accepts, its numbers are the exact ones, and it accepts exactly what fits.
-/
namespace ExpertStreaming.VramCache
open Lib List Option

def intMax : Nat := 2 ^ 31 - 1

def toInt (n : Nat) : Int := Int.bmod n (2 ^ 32)

def toU64 (i : Int) : Nat := (i % 2 ^ 64).toNat

theorem toInt_of_le {n} (h : n ≤ intMax) : toInt n = n := by
  unfold intMax at h
  exact Int.bmod_eq_of_le (by omega) (by omega)

theorem toU64_natCast {n} (h : n ≤ intMax) : toU64 n = n := by
  unfold intMax at h
  unfold toU64
  omega

/-- `ggml_active_expert_cache_component`. -/
inductive Part where
  | gate | up | down | gateUp
  deriving DecidableEq

instance : Fintype Part := ⟨{.gate, .up, .down, .gateUp}, fun c => by cases c <;> decide⟩

def Part.all : List Part := [.gate, .up, .down, .gateUp]

def Part.each {α : Type} (f : Part → Option α) : Option (Part → α) := do
  let gate ← f .gate
  let up ← f .up
  let down ← f .down
  let gateUp ← f .gateUp
  some fun
    | .gate => gate
    | .up => up
    | .down => down
    | .gateUp => gateUp

theorem Part.each_eq_some {α : Type} {f : Part → Option α} {g} :
    Part.each f = some g ↔ ∀ c, f c = some (g c) := by
  simp only [Part.each, bind_eq_bind, bind_eq_some_iff, some.injEq]
  constructor
  · rintro ⟨_, hgate, _, hup, _, hdown, _, hgateUp, rfl⟩ (_ | _ | _ | _) <;> assumption
  · intro h
    refine ⟨_, h .gate, _, h .up, _, h .down, _, h .gateUp, funext fun c => ?_⟩
    cases c <;> rfl

/-! ## Tensors -/

def typeCount : Int := 400

/-- `ggml_active_expert_cache_layout`. -/
structure Layout where
  type : Int := typeCount
  ne0 : Int := 0
  ne1 : Int := 0
  logicalExperts : Int := 0
  nb0 : Nat := 0
  nb1 : Nat := 0
  nb2 : Nat := 0
  deriving DecidableEq

/-- The fields of a `ggml_tensor` that an expert layout sets. -/
structure Tensor where
  type : Int
  ne0 : Int
  ne1 : Int
  ne2 : Int
  nb0 : Nat
  nb1 : Nat
  nb2 : Nat
  nb3 : Nat
  deriving DecidableEq

def materializeLayout (d : Layout) : Option Tensor :=
  if d.type < 0 ∨ typeCount ≤ d.type ∨ d.ne0 < 1 ∨ d.ne1 < 1 ∨ d.logicalExperts < 2 ∨ d.nb0 = 0 ∨
      d.nb1 = 0 ∨ d.nb2 = 0 ∨ u64Max / d.nb2 < toU64 d.logicalExperts then none
  else some ⟨d.type, d.ne0, d.ne1, d.logicalExperts, d.nb0, d.nb1, d.nb2,
    d.nb2 * toU64 d.logicalExperts⟩

/-- A buffer type: its alignment and `ggml_backend_buft_get_alloc_size`. -/
structure Backend where
  alignment : Nat
  alignment_le : alignment ≤ u64Max
  allocSize : Tensor → Nat

/-- The allocation size does not shrink when slots are added. -/
def Backend.Monotone (b : Backend) : Prop :=
  ∀ (t : Tensor) (m n : Nat) (span span' : Nat), m ≤ n → span ≤ span' →
    b.allocSize { t with ne2 := m, nb3 := span } ≤ b.allocSize { t with ne2 := n, nb3 := span' }

def Backend.align (b : Backend) (size : Nat) : Nat :=
  (size + b.alignment - 1) / b.alignment * b.alignment

theorem Backend.le_align {b : Backend} (hpos : 0 < b.alignment) (size : Nat) :
    size ≤ b.align size := by
  have hlt := Nat.lt_div_mul_add hpos (a := size + b.alignment - 1)
  unfold align
  omega

theorem Backend.align_le {b : Backend} (hpos : 0 < b.alignment) (size : Nat) :
    b.align size ≤ size + (b.alignment - 1) := by
  have hle := Nat.div_mul_le_self (size + b.alignment - 1) b.alignment
  unfold align
  omega

theorem Backend.align_mono (b : Backend) {m n} (h : m ≤ n) : b.align m ≤ b.align n :=
  Nat.mul_le_mul_right _ (Nat.div_le_div_right (by omega))

/-! ## Grouping the layers -/

structure Pool where
  strides : Part → Nat
  layouts : Part → List Layout := fun _ => []
  logicalExperts : Nat := 0

def Pool.tensors (p : Pool) (c : Part) : List Tensor := (p.layouts c).filterMap materializeLayout

def shareFusedStride (bytes : Part → Nat) : Part → Nat :=
  if bytes .up ≠ 0 ∧ bytes .gate ≠ 0 then fun
    | .up | .gate => max (bytes .up) (bytes .gate)
    | c => bytes c
  else bytes

def Pool.add (p : Pool) (logical : Nat) (layer : Part → Layout) : Pool :=
  { p with
    logicalExperts := u64Add p.logicalExperts logical
    layouts := fun c => if (layer c).nb2 ≠ 0 then p.layouts c ++ [layer c] else p.layouts c }

/-- Put a layer into the first pool with its strides, or into a new one, and say which. -/
def enter (strides : Part → Nat) (logical : Nat) (layer : Part → Layout) :
    List Pool → List Pool × Nat
  | [] => ([Pool.add { strides } logical layer], 0)
  | p :: rest =>
    if p.strides = strides then (p.add logical layer :: rest, 0)
    else ((p :: (enter strides logical layer rest).1), (enter strides logical layer rest).2 + 1)

structure Grouping where
  pools : List Pool := []
  layerPools : List (Int × Nat) := []
  logicalTotal : Nat := 0

/-- What `plan_pools` reads of the scheduler and of the device. -/
structure Request where
  /-- `ESE_EXPERT_CACHE_PACKING` is `1`. -/
  packing : Bool
  ambiguous : Bool
  backendId : Int
  owners : Int → Option Int
  /-- The layers in their order. -/
  catalog : List (Int × (Part → Layout))
  idsBytes : Nat
  ids_le : idsBytes ≤ u64Max
  capacityBytes : Nat
  capacity_le : capacityBytes ≤ u64Max

def addLayer (q : Request) (g : Grouping) (layer : Int × (Part → Layout)) : Option Grouping :=
  if (q.owners layer.1).any (· ≠ q.backendId) then some g
  else
    let strides := shareFusedStride fun c => (layer.2 c).nb2
    let logical := (Part.all.map fun c => toU64 (layer.2 c).logicalExperts).foldl max 0
    if logical = 0 ∨ intMax < logical ∨ intMax - logical < g.logicalTotal then none
    else some {
      pools := (enter strides logical layer.2 g.pools).1
      layerPools := g.layerPools ++ [(layer.1, (enter strides logical layer.2 g.pools).2)]
      logicalTotal := u64Add g.logicalTotal logical }

def Grouping.Counted (g : Grouping) : Prop :=
  g.logicalTotal ≤ intMax ∧ ∀ p ∈ g.pools, p.logicalExperts ≤ g.logicalTotal

theorem enter_counted {strides logical layer total} (hfits : total + logical ≤ intMax) :
    ∀ pools : List Pool, (∀ p ∈ pools, p.logicalExperts ≤ total) →
      ∀ p ∈ (enter strides logical layer pools).1, p.logicalExperts ≤ total + logical
  | [], _, p, hp => by
    obtain rfl := List.mem_singleton.mp hp
    have hsum : 0 + logical ≤ u64Max := by unfold u64Max; unfold intMax at hfits; omega
    simp only [Pool.add, u64Add_of_le hsum]
    omega
  | q :: rest, hle, p, hp => by
    have hq := hle q mem_cons_self
    have hrest := fun r hr => hle r (mem_cons_of_mem q hr)
    have hsum : q.logicalExperts + logical ≤ u64Max := by
      unfold u64Max; unfold intMax at hfits; omega
    unfold enter at hp
    split at hp
    · rcases mem_cons.mp hp with rfl | hp
      · simp only [Pool.add, u64Add_of_le hsum]
        omega
      · exact Nat.le_add_right_of_le (hrest p hp)
    · rcases mem_cons.mp hp with rfl | hp
      · exact Nat.le_add_right_of_le hq
      · exact enter_counted hfits rest hrest p hp

theorem addLayer_counted {q g g' layer} (hg : g.Counted) (h : addLayer q g layer = some g') :
    g'.Counted := by
  unfold addLayer at h
  split at h
  · exact some.inj h ▸ hg
  dsimp only at h
  split at h
  · cases h
  next hfits =>
  obtain rfl := some.inj h
  simp only [not_or, Nat.not_lt] at hfits
  have hsum := Nat.add_le_of_le_sub hfits.2.1 hfits.2.2
  have hexact := u64Add_of_le (Nat.le_trans hsum (show intMax ≤ u64Max by decide))
  refine ⟨hexact ▸ hsum, fun p hp => ?_⟩
  dsimp only
  rw [hexact]
  exact enter_counted hsum g.pools hg.2 p hp

theorem counted_of_foldlM {q g'} : ∀ {layers : List (Int × (Part → Layout))} {g},
    g.Counted → layers.foldlM (addLayer q) g = some g' → g'.Counted
  | [], _, hg, h => Option.some.inj h ▸ hg
  | _ :: _, _, hg, h => by
    obtain ⟨_, hstep, hrest⟩ := Option.bind_eq_some_iff.mp h
    exact counted_of_foldlM (addLayer_counted hg hstep) hrest

/-! ## Placing the pools -/

structure Placed extends Pool where
  begin : Int
  slots : Int
  offsets : Part → Nat
  spans : Part → Nat

/-- The bytes of a component: the slots, or what the backend asks for one of the layouts. -/
def Pool.span (b : Backend) (p : Pool) (c : Part) (slots : Int) : Nat :=
  (p.tensors c).foldl (fun span t =>
    max span (b.allocSize { t with ne2 := slots, nb2 := p.strides c, nb3 := span }))
    (p.strides c * toU64 slots)

def placePart (b : Backend) (p : Pool) (slots : Int) (size : Nat) (c : Part) :
    Option (Nat × Nat × Nat) :=
  if p.strides c = 0 then some (0, 0, size)
  else if u64Max / toU64 slots < p.strides c then none
  else if (p.layouts c).any fun d => (materializeLayout d).isNone then none
  else if u64Max - (b.alignment - 1) < size then none
  else if u64Max - b.align size < p.span b c slots then none
  else some (b.align size, p.span b c slots, u64Add (b.align size) (p.span b c slots))

/-- The loop of `fit` over the pools: the placed pools and the sizes of the components. -/
def placePools (b : Backend) (total units : Nat) :
    Nat → (Part → Nat) → List Pool → Option (List Placed × (Part → Nat))
  | _, sizes, [] => some ([], sizes)
  | slots, sizes, p :: rest => do
    let n := toInt (max 64 (units * p.logicalExperts % 2 ^ 64 / total))
    let next := u64Add slots (toU64 n)
    if intMax < next then none
    else
      let parts ← Part.each fun c => placePart b p n (sizes c) c
      let r ← placePools b total units next (fun c => (parts c).2.2) rest
      some ({ p with
        begin := toInt slots, slots := n, offsets := fun c => (parts c).1
        spans := fun c => (parts c).2.1 } :: r.1, r.2)

def fit (b : Backend) (q : Request) (g : Grouping) (units : Nat) : Option (List Placed) := do
  let r ← placePools b g.logicalTotal units 0 (fun _ => 0) g.pools
  let bytes ← sumChecked q.idsBytes (Part.all.map r.2)
  if bytes ≤ q.capacityBytes then some r.1 else none

/-- The binary search; `fuel` bounds its rounds. -/
def search (fits : Nat → Bool) : Nat → Nat → Nat → Nat
  | 0, low, _ => low
  | fuel + 1, low, high =>
    if low < high then
      let middle := low + (high - low + 1) / 2
      if fits middle then search fits fuel middle high else search fits fuel low (middle - 1)
    else low

structure Plan where
  slots : Int
  pools : List Placed
  layerPools : List (Int × Nat)

/-- `ggml_active_expert_cache_plan_pools`. -/
def planPools (b : Backend) (q : Request) : Option Plan :=
  if q.packing = false ∨ q.capacityBytes = 0 ∨ q.ambiguous then none
  else do
    let g ← q.catalog.foldlM (addLayer q) {}
    if g.pools.isEmpty ∨ g.logicalTotal = 0 ∨ b.alignment = 0 then none
    else do
      let _ ← fit b q g 0
      let low := search (fun units => (fit b q g units).isSome) g.logicalTotal 0 g.logicalTotal
      let pools ← fit b q g low
      let last ← pools.getLast?
      some ⟨last.begin + last.slots, pools, g.layerPools⟩

/-! ## Exact placement -/

section Exact

variable (b : Backend) (total units : Nat)

def Pool.slotsAt (p : Pool) : Nat := max 64 (units * p.logicalExperts / total)

def Pool.grow (p : Pool) (c : Part) (size : Nat) : Nat :=
  if p.strides c = 0 then size else b.align size + p.span b c (p.slotsAt total units)

def sizeAfter (c : Part) : Nat → List Pool → Nat
  | size, [] => size
  | size, p :: rest => sizeAfter c (p.grow b total units c size) rest

def Rounds (c : Part) : Nat → List Pool → Prop
  | _, [] => True
  | size, p :: rest => (p.strides c ≠ 0 → size + (b.alignment - 1) ≤ u64Max) ∧
      Rounds c (p.grow b total units c size) rest

def place : Nat → (Part → Nat) → List Pool → List Placed
  | _, _, [] => []
  | slots, sizes, p :: rest =>
    { p with
      begin := slots, slots := p.slotsAt total units
      offsets := fun c => if p.strides c = 0 then 0 else b.align (sizes c)
      spans := fun c => if p.strides c = 0 then 0 else p.span b c (p.slotsAt total units) } ::
    place (slots + p.slotsAt total units) (fun c => p.grow b total units c (sizes c)) rest

def Materialized (pools : List Pool) : Prop :=
  ∀ p ∈ pools, ∀ c, p.strides c ≠ 0 → ∀ d ∈ p.layouts c, (materializeLayout d).isSome = true

/-- `units` fit: the slots an `int`, the roundings 64 bits, and the exact bytes the capacity. -/
structure Fits (q : Request) (pools : List Pool) : Prop where
  slots : (pools.map (Pool.slotsAt total units)).sum ≤ intMax
  layouts : Materialized pools
  rounds : ∀ c, Rounds b total units c 0 pools
  bytes : q.idsBytes + (Part.all.map fun c => sizeAfter b total units c 0 pools).sum ≤
    q.capacityBytes

end Exact

section

variable {b : Backend} {total units : Nat}

theorem Pool.stride_le_span (p : Pool) {c} (slots : Int) :
    p.strides c * toU64 slots ≤ p.span b c slots := by
  unfold Pool.span
  generalize p.strides c * toU64 slots = start
  induction p.tensors c generalizing start with
  | nil => exact le_refl start
  | cons t rest ih => exact (Nat.le_max_left start _).trans (ih _)

theorem Pool.le_grow (hpos : 0 < b.alignment) (p : Pool) (c : Part) (size : Nat) :
    size ≤ p.grow b total units c size := by
  unfold Pool.grow
  split
  · exact le_refl size
  · exact Nat.le_add_right_of_le (b.le_align hpos size)

theorem le_sizeAfter (hpos : 0 < b.alignment) {c} : ∀ (pools : List Pool) (size : Nat),
    size ≤ sizeAfter b total units c size pools
  | [], size => le_refl size
  | p :: rest, size => (p.le_grow hpos c size).trans (le_sizeAfter hpos rest _)

theorem placePart_eq_some (hpos : 0 < b.alignment) {p : Pool} {size : Nat} {c : Part}
    {r : Nat × Nat × Nat} (hslots : p.slotsAt total units ≤ intMax) :
    placePart b p (p.slotsAt total units) size c = some r ↔
      (p.strides c ≠ 0 → (∀ d ∈ p.layouts c, (materializeLayout d).isSome = true) ∧
        size + (b.alignment - 1) ≤ u64Max ∧ p.grow b total units c size ≤ u64Max) ∧
      r = (if p.strides c = 0 then 0 else b.align size,
        if p.strides c = 0 then 0 else p.span b c (p.slotsAt total units),
        p.grow b total units c size) := by
  unfold placePart Pool.grow
  by_cases hzero : p.strides c = 0
  · simp only [hzero, ↓reduceIte, ne_eq, not_true_eq_false, false_implies, true_and,
      some.injEq]
    exact eq_comm
  have hn : toU64 (p.slotsAt total units) = p.slotsAt total units := toU64_natCast hslots
  have hslotsPos : 0 < p.slotsAt total units := Nat.lt_of_lt_of_le (by decide) (Nat.le_max_left 64 _)
  have hle := p.stride_le_span (b := b) (c := c) (p.slotsAt total units)
  rw [hn] at hle
  simp only [hzero, hn, ne_eq, not_false_eq_true, forall_const, ↓reduceIte]
  generalize p.span b c (p.slotsAt total units) = span at hle ⊢
  have hmul : ¬ u64Max / p.slotsAt total units < p.strides c ↔
      p.strides c * p.slotsAt total units ≤ u64Max := by
    rw [Nat.not_lt, Nat.le_div_iff_mul_le hslotsPos]
  have hmat : ¬ ((p.layouts c).any fun d => (materializeLayout d).isNone) = true ↔
      ∀ d ∈ p.layouts c, (materializeLayout d).isSome = true := by
    simp [isSome_iff_ne_none]
  have halign := b.align_le hpos size
  have halignment := b.alignment_le
  constructor
  · intro h
    split at h
    · cases h
    split at h
    · cases h
    next hlayouts =>
    split at h
    · cases h
    next hround =>
    split at h
    · cases h
    next hspan =>
    have hgrow : b.align size + span ≤ u64Max := by omega
    refine ⟨⟨hmat.mp hlayouts, by omega, hgrow⟩, ?_⟩
    rw [← u64Add_of_le hgrow]
    exact (some.inj h).symm
  · rintro ⟨⟨hlayouts, hround, hgrow⟩, rfl⟩
    rw [if_neg (hmul.mpr (by omega)), if_neg (hmat.mpr hlayouts), if_neg (by omega),
      if_neg (by omega), u64Add_of_le hgrow]

theorem slotsAt_le {p : Pool} (hp : p.logicalExperts ≤ total) (htotal : total ≤ intMax)
    (hunits : units ≤ total) : p.slotsAt total units ≤ intMax ∧
      units * p.logicalExperts % 2 ^ 64 = units * p.logicalExperts := by
  refine ⟨Nat.max_le.mpr ⟨by decide, ?_⟩, Nat.mod_eq_of_lt ?_⟩
  · exact (Nat.div_le_of_le_mul (Nat.mul_le_mul_right _ hunits)).trans (hp.trans htotal)
  · calc units * p.logicalExperts ≤ intMax * intMax :=
        Nat.mul_le_mul (hunits.trans htotal) (hp.trans htotal)
      _ < 2 ^ 64 := by decide

/-- **The loop of `fit` is exact** where slots, sizes and roundings fit their words. -/
theorem placePools_eq_some (hpos : 0 < b.alignment) (hunits : units ≤ total)
    (htotal : total ≤ intMax) : ∀ (pools : List Pool) {slots : Nat} {sizes : Part → Nat} {r},
      (∀ p ∈ pools, p.logicalExperts ≤ total) → slots ≤ intMax → (∀ c, sizes c ≤ u64Max) →
      (placePools b total units slots sizes pools = some r ↔
        (slots + (pools.map (Pool.slotsAt total units)).sum ≤ intMax ∧ Materialized pools ∧
          (∀ c, Rounds b total units c (sizes c) pools) ∧
          ∀ c, sizeAfter b total units c (sizes c) pools ≤ u64Max) ∧
        r = (place b total units slots sizes pools,
          fun c => sizeAfter b total units c (sizes c) pools))
  | [], slots, sizes, r, _, hslots, hsizes => by
    simp only [placePools, place, sizeAfter, Rounds, Option.some.injEq]
    exact ⟨fun h => ⟨⟨hslots, fun _ hp => (nomatch hp), fun _ => trivial, hsizes⟩, h.symm⟩,
      fun h => h.2.symm⟩
  | p :: rest, slots, sizes, r, hle, hslots, hsizes => by
    obtain ⟨hn, hmod⟩ := slotsAt_le (hle p List.mem_cons_self) htotal hunits
    have hrest := fun p' hp' => hle p' (List.mem_cons_of_mem p hp')
    have hadd : u64Add slots (p.slotsAt total units) = slots + p.slotsAt total units :=
      u64Add_of_le (by unfold u64Max; unfold intMax at hslots hn; omega)
    have hint : toInt (max 64 (units * p.logicalExperts / total)) = p.slotsAt total units :=
      toInt_of_le hn
    simp only [placePools, hmod, hint, toU64_natCast hn, hadd, toInt_of_le hslots,
      map_cons, sum_cons, place, sizeAfter, Rounds]
    constructor
    · intro h
      split at h
      · cases h
      next hfits =>
      obtain ⟨parts, hparts, h⟩ := bind_eq_some_iff.mp h
      obtain ⟨r', hr', h⟩ := bind_eq_some_iff.mp h
      have hpart := fun c => (placePart_eq_some hpos hn).mp (Part.each_eq_some.mp hparts c)
      have hvalue : parts = fun c => _ := funext fun c => (hpart c).2
      have hgrow : ∀ c, p.grow b total units c (sizes c) ≤ u64Max := fun c => by
        by_cases hzero : p.strides c = 0
        · rw [Pool.grow, if_pos hzero]
          exact hsizes c
        · exact ((hpart c).1 hzero).2.2
      subst hvalue
      obtain ⟨⟨hsum, hmat, hrounds, hafter⟩, rfl⟩ :=
        (placePools_eq_some hpos hunits htotal rest hrest (by omega) hgrow).mp hr'
      refine ⟨⟨by omega, ?_, fun c => ⟨fun hne => ((hpart c).1 hne).2.1, hrounds c⟩, hafter⟩,
        (some.inj h).symm⟩
      intro p' hp'
      rcases mem_cons.mp hp' with rfl | hp'
      · exact fun c hne => ((hpart c).1 hne).1
      · exact hmat p' hp'
    · rintro ⟨⟨hsum, hmat, hrounds, hafter⟩, rfl⟩
      have hgrow := fun c => (le_sizeAfter hpos rest _).trans (hafter c)
      have hparts : Part.each (fun c => placePart b p (p.slotsAt total units) (sizes c) c) =
          some fun c => _ := Part.each_eq_some.mpr fun c => (placePart_eq_some hpos hn).mpr
            ⟨fun hne => ⟨hmat p mem_cons_self c hne, (hrounds c).1 hne, hgrow c⟩, rfl⟩
      have ih : placePools b total units (slots + p.slotsAt total units)
          (fun c => p.grow b total units c (sizes c)) rest = some _ :=
        (placePools_eq_some hpos hunits htotal rest hrest (by omega) hgrow).mpr
          ⟨⟨by omega, fun p' hp' => hmat p' (mem_cons_of_mem p hp'), fun c => (hrounds c).2,
            hafter⟩, rfl⟩
      rw [if_neg (by omega), hparts]
      simp only [bind_eq_bind, bind_some, ih]

theorem fit_eq_some {q g placed} (hpos : 0 < b.alignment) (hg : g.Counted)
    (hunits : units ≤ g.logicalTotal) :
    fit b q g units = some placed ↔ Fits b g.logicalTotal units q g.pools ∧
      placed = place b g.logicalTotal units 0 (fun _ => 0) g.pools := by
  have hplace := fun r => @placePools_eq_some b g.logicalTotal units hpos hunits hg.1 g.pools 0
    (fun _ => 0) r hg.2 (Nat.zero_le _) fun _ => Nat.zero_le _
  have hcapacity := q.capacity_le
  simp only [fit, bind_eq_bind, bind_eq_some_iff, sumChecked_eq_some q.ids_le,
    ite_none_right_eq_some, some.injEq]
  constructor
  · rintro ⟨r, hr, _, ⟨rfl, -⟩, hbytes, rfl⟩
    obtain ⟨⟨hsum, hmat, hrounds, -⟩, rfl⟩ := (hplace r).mp hr
    rw [Nat.zero_add] at hsum
    exact ⟨⟨hsum, hmat, hrounds, hbytes⟩, rfl⟩
  · rintro ⟨⟨hsum, hmat, hrounds, hbytes⟩, rfl⟩
    refine ⟨_, (hplace _).mpr ⟨⟨by rwa [Nat.zero_add], hmat, hrounds, fun c => ?_⟩, rfl⟩, _,
      ⟨rfl, hbytes.trans hcapacity⟩, hbytes, rfl⟩
    have hmem : sizeAfter b g.logicalTotal units c 0 g.pools ∈
        Part.all.map fun c => sizeAfter b g.logicalTotal units c 0 g.pools :=
      mem_map_of_mem (by cases c <;> decide)
    have hle := le_sum_of_mem hmem
    omega

end

/-! ## More units never need less -/

section

variable {b : Backend} {total : Nat} (hmono : b.Monotone)

theorem Pool.slotsAt_mono (p : Pool) {u v} (h : u ≤ v) :
    p.slotsAt total u ≤ p.slotsAt total v :=
  max_le_max_left 64 (Nat.div_le_div_right (Nat.mul_le_mul_right _ h))

include hmono

theorem Pool.span_mono (p : Pool) (c : Part) {m n} (h : m ≤ n) (hn : n ≤ intMax) :
    p.span b c m ≤ p.span b c n := by
  unfold Pool.span
  rw [toU64_natCast hn, toU64_natCast (h.trans hn)]
  have hstart : p.strides c * m ≤ p.strides c * n := Nat.mul_le_mul_left _ h
  revert hstart
  generalize p.strides c * m = start
  generalize p.strides c * n = start'
  intro hstart
  induction p.tensors c generalizing start start' with
  | nil => exact hstart
  | cons t rest ih =>
    refine ih _ _ (max_le_max hstart ?_)
    exact hmono { t with nb2 := p.strides c } m n start start' h hstart

theorem Pool.grow_mono (p : Pool) (c : Part) {u v} (h : u ≤ v) (hv : p.slotsAt total v ≤ intMax)
    {m n} (hsize : m ≤ n) :
    p.grow b total u c m ≤ p.grow b total v c n := by
  unfold Pool.grow
  split
  · exact hsize
  · exact Nat.add_le_add (b.align_mono hsize) (p.span_mono hmono c (p.slotsAt_mono h) hv)

theorem sizeAfter_mono (c : Part) {u v} (h : u ≤ v) : ∀ (pools : List Pool) {m n : Nat},
    (∀ p ∈ pools, p.slotsAt total v ≤ intMax) → m ≤ n →
      sizeAfter b total u c m pools ≤ sizeAfter b total v c n pools ∧
      (Rounds b total v c n pools → Rounds b total u c m pools)
  | [], _, _, _, hsize => ⟨hsize, id⟩
  | p :: rest, m, n, hv, hsize => by
    have hgrow := p.grow_mono hmono c h (hv p List.mem_cons_self) hsize
    obtain ⟨hafter, hrounds⟩ :=
      sizeAfter_mono c h rest (fun p' hp' => hv p' (mem_cons_of_mem p hp')) hgrow
    refine ⟨hafter, fun hr => ⟨fun hne => ?_, hrounds hr.2⟩⟩
    have hfirst := hr.1 hne
    omega

theorem Fits.mono {q pools u v} (hfits : Fits b total v q pools) (h : u ≤ v) :
    Fits b total u q pools := by
  have hslots : ∀ p ∈ pools, p.slotsAt total v ≤ intMax := fun p hp =>
    (le_sum_of_mem (mem_map_of_mem hp)).trans hfits.slots
  have hsize := fun c => sizeAfter_mono hmono c h pools hslots (le_refl 0)
  refine ⟨(sum_le_sum fun p _ => p.slotsAt_mono h).trans hfits.slots, hfits.layouts,
    fun c => (hsize c).2 (hfits.rounds c), le_trans ?_ hfits.bytes⟩
  exact Nat.add_le_add_left (sum_le_sum fun c _ => (hsize c).1) _

end

/-- The search returns the greatest value of a range on which `fits` is closed downwards. -/
theorem search_greatest {fits limit}
    (hdown : ∀ m n, m ≤ n → n ≤ limit → fits n = true → fits m = true) :
    ∀ {fuel low high : Nat}, high - low ≤ fuel → low ≤ high → high ≤ limit → fits low = true →
      (∀ n ≤ limit, fits n = true → n ≤ high) →
      IsGreatest {n | n ≤ limit ∧ fits n = true} (search fits fuel low high)
  | 0, low, high, hfuel, hle, hhigh, hlow, hbound => by
    obtain rfl : low = high := by omega
    exact ⟨⟨hhigh, hlow⟩, fun n hn => hbound n hn.1 hn.2⟩
  | fuel + 1, low, high, hfuel, hle, hhigh, hlow, hbound => by
    unfold search
    split
    · dsimp only
      split
      next hmiddle =>
        exact search_greatest hdown (by omega) (by omega) hhigh hmiddle hbound
      next hmiddle =>
      refine search_greatest hdown (by omega) (by omega) (by omega) hlow fun n hn hfits => ?_
      by_contra hgt
      exact hmiddle (hdown _ n (by omega) hn hfits)
    · exact ⟨⟨hle.trans hhigh, hlow⟩, fun n hn => (hbound n hn.1 hn.2).trans (by omega)⟩

/-! ## The plan -/

section

variable {b : Backend} {total units : Nat}

theorem place_mem (hpos : 0 < b.alignment) {r : Placed} : ∀ {pools : List Pool} {slots : Nat}
    {sizes : Part → Nat}, r ∈ place b total units slots sizes pools →
      slots ≤ r.begin ∧ 64 ≤ r.slots ∧ ∀ c, b.alignment ∣ r.offsets c ∧
        (0 < r.spans c → sizes c ≤ r.offsets c) ∧
        r.offsets c + r.spans c ≤ sizeAfter b total units c (sizes c) pools
  | [], _, _, h => by cases h
  | p :: rest, slots, sizes, h => by
    rcases List.mem_cons.mp h with rfl | h
    · refine ⟨le_refl _, ?_, fun c => ?_⟩
      · exact Int.ofNat_le.mpr (Nat.le_max_left 64 _)
      have hafter : _ ≤ sizeAfter b total units c (p.grow b total units c (sizes c)) rest :=
        le_sizeAfter hpos rest _
      by_cases hzero : p.strides c = 0
      · simp [hzero]
      · simp only [Pool.grow, if_neg hzero, sizeAfter] at hafter ⊢
        exact ⟨Nat.dvd_mul_left _ _, fun _ => b.le_align hpos _, hafter⟩
    · obtain ⟨hbegin, hslots, hparts⟩ := place_mem hpos h
      refine ⟨by omega, hslots, fun c => ?_⟩
      obtain ⟨hdvd, hoffset, hstop⟩ := hparts c
      exact ⟨hdvd, fun hspan => (p.le_grow hpos c _).trans (hoffset hspan), hstop⟩

theorem place_pairwise (hpos : 0 < b.alignment) : ∀ (pools : List Pool) (slots : Nat)
    (sizes : Part → Nat), (place b total units slots sizes pools).Pairwise fun p r =>
      p.begin + p.slots ≤ r.begin ∧ ∀ c, 0 < p.spans c → 0 < r.spans c →
        p.offsets c + p.spans c ≤ r.offsets c
  | [], _, _ => .nil
  | p :: rest, slots, sizes => by
    refine .cons (fun r hr => ?_) (place_pairwise hpos rest _ _)
    obtain ⟨hbegin, -, hparts⟩ := place_mem hpos hr
    refine ⟨by push_cast at hbegin; exact hbegin, fun c hspan hr' => ?_⟩
    have hoffset := (hparts c).2.1 hr'
    by_cases hzero : p.strides c = 0
    · simp [hzero] at hspan
    · simp only [Pool.grow, if_neg hzero] at hoffset ⊢
      exact hoffset

theorem place_cover (x : Int) : ∀ (pools : List Pool) (slots : Nat) (sizes : Part → Nat),
    ((slots : Int) ≤ x ∧ x < (slots + (pools.map (Pool.slotsAt total units)).sum : Nat)) ↔
      ∃ p ∈ place b total units slots sizes pools, p.begin ≤ x ∧ x < p.begin + p.slots
  | [], slots, sizes => by
    simp only [List.map_nil, List.sum_nil, place, List.not_mem_nil, false_and, exists_false, iff_false]
    omega
  | p :: rest, slots, sizes => by
    have ih := place_cover x rest (slots + p.slotsAt total units)
      fun c => p.grow b total units c (sizes c)
    simp only [List.map_cons, List.sum_cons, place, List.exists_mem_cons_iff, ← ih]
    omega

theorem place_last : ∀ {pools : List Pool} {slots : Nat} {sizes : Part → Nat} {last : Placed},
    (place b total units slots sizes pools).getLast? = some last →
      last.begin + last.slots = (slots + (pools.map (Pool.slotsAt total units)).sum : Nat)
  | [], _, _, _, h => by cases h
  | [p], slots, sizes, last, h => by
    simp only [place, List.getLast?_singleton, Option.some.injEq] at h
    simp [← h]
  | p :: p' :: rest, slots, sizes, last, h => by
    rw [place, place, List.getLast?_cons_cons, ← place] at h
    rw [place_last h]
    simp [Nat.add_assoc]

end

/-- The bytes of a component's buffer, as `init_packed_component` computes them. -/
def Plan.componentBytes (plan : Plan) (c : Part) : Nat :=
  (plan.pools.map fun p => p.offsets c + p.spans c).foldl max 0

/-- **What `plan_pools` answers.** The slot ranges of the pools cover the slots side by side, the
regions of a component are aligned and apart within the capacity, and no more units would fit. -/
theorem planPools_packs {b q plan} (hmono : b.Monotone) (h : planPools b q = some plan) :
    plan.pools.Pairwise (fun p r => p.begin + p.slots ≤ r.begin) ∧
    (∀ x : Int, 0 ≤ x ∧ x < plan.slots ↔
      ∃ p ∈ plan.pools, p.begin ≤ x ∧ x < p.begin + p.slots) ∧
    (∀ p ∈ plan.pools, 64 ≤ p.slots) ∧ plan.slots ≤ intMax ∧
    (∀ c, (∀ p ∈ plan.pools, b.alignment ∣ p.offsets c) ∧
      plan.pools.Pairwise fun p r => 0 < p.spans c → 0 < r.spans c →
        p.offsets c + p.spans c ≤ r.offsets c) ∧
    q.idsBytes + (Part.all.map plan.componentBytes).sum ≤ q.capacityBytes ∧
    ∃ g units, q.catalog.foldlM (addLayer q) {} = some g ∧
      plan.pools = place b g.logicalTotal units 0 (fun _ => 0) g.pools ∧
      IsGreatest {n | n ≤ g.logicalTotal ∧ Fits b g.logicalTotal n q g.pools} units := by
  unfold planPools at h
  split at h
  · cases h
  obtain ⟨g, hgroup, h⟩ := bind_eq_some_iff.mp h
  have hg : g.Counted := counted_of_foldlM ⟨by decide, by simp⟩ hgroup
  split at h
  · cases h
  next hvalid =>
  have hpos : 0 < b.alignment := by
    simp only [not_or] at hvalid
    exact Nat.pos_of_ne_zero hvalid.2.2
  obtain ⟨base, hbase, h⟩ := bind_eq_some_iff.mp h
  obtain ⟨placed, hplaced, h⟩ := bind_eq_some_iff.mp h
  obtain ⟨last, hlast, h⟩ := bind_eq_some_iff.mp h
  obtain rfl := some.inj h
  have hfits : ∀ n ≤ g.logicalTotal, (fit b q g n).isSome = true ↔
      Fits b g.logicalTotal n q g.pools := fun n hn => by
    simp only [isSome_iff_exists, fit_eq_some hpos hg hn, exists_and_left, exists_eq,
      and_true]
  have hdown : ∀ m n, m ≤ n → n ≤ g.logicalTotal → (fit b q g n).isSome = true →
      (fit b q g m).isSome = true := fun m n hmn hn hfit =>
    (hfits m (hmn.trans hn)).mpr (((hfits n hn).mp hfit).mono hmono hmn)
  have hgreatest := search_greatest hdown (le_refl g.logicalTotal) (Nat.zero_le _) (le_refl _)
    (isSome_iff_exists.mpr ⟨base, hbase⟩) fun n hn _ => hn
  generalize search _ g.logicalTotal 0 g.logicalTotal = units at hgreatest hplaced
  have hunits := hgreatest.1.1
  obtain ⟨hfit, rfl⟩ := (fit_eq_some hpos hg hunits).mp hplaced
  have hstop := place_last hlast
  have hpairs := @place_pairwise b g.logicalTotal units hpos g.pools 0 fun _ => 0
  refine ⟨hpairs.imp And.left, fun x => ?_, fun p hp => (place_mem hpos hp).2.1, ?_, fun c =>
    ⟨fun p hp => ((place_mem hpos hp).2.2 c).1, hpairs.imp fun hp => hp.2 c⟩, ?_, g, units, hgroup,
    rfl, ⟨⟨hunits, hfit⟩, fun n hn => hgreatest.2 ⟨hn.1, (hfits n hn.1).mpr hn.2⟩⟩⟩
  · rw [← place_cover x g.pools 0 fun _ => 0, hstop]
    rfl
  · have hslots := hfit.slots
    dsimp only
    omega
  · refine le_trans (Nat.add_le_add_left (sum_le_sum fun c _ => ?_) _) hfit.bytes
    unfold Plan.componentBytes
    rcases foldl_max_mem _ 0 with hzero | hmem
    · rw [hzero]
      exact Nat.zero_le _
    · obtain ⟨p, hp, heq⟩ := mem_map.mp hmem
      rw [← heq]
      exact ((place_mem hpos hp).2.2 c).2.2

def paddedBackend : Backend := ⟨32, by decide, fun t => t.nb2 * t.ne2.toNat + 16⟩

def twoLayers : Request where
  packing := true
  ambiguous := false
  backendId := 0
  owners _ := none
  catalog := [(0, fun _ => ⟨0, 4, 4, 100, 1, 4, 16⟩), (1, fun _ => ⟨0, 4, 8, 100, 1, 4, 24⟩)]
  idsBytes := 256
  ids_le := by decide
  capacityBytes := 13000
  capacity_le := by decide

/-- Of 200 units 157 fit: 78 slots for each of the two layers. -/
theorem two_layers_are_packed : ∃ plan, planPools paddedBackend twoLayers = some plan ∧
    plan.pools.map (fun p => (p.begin, p.slots)) = [(0, 78), (78, 78)] ∧
    256 + (Part.all.map plan.componentBytes).sum ≤ 13000 := by
  have hplan : ((planPools paddedBackend twoLayers).any fun plan =>
      plan.pools.map (fun p => (p.begin, p.slots)) = [(0, 78), (78, 78)]) = true := by
    decide +kernel
  obtain ⟨plan, h, hpools⟩ := (any_eq_true _ _).mp hplan
  have hmono : paddedBackend.Monotone := fun t m n _ _ hmn _ =>
    Nat.add_le_add_right (Nat.mul_le_mul_left _ (Int.toNat_le_toNat (Int.ofNat_le.mpr hmn))) 16
  exact ⟨plan, h, of_decide_eq_true hpools, (planPools_packs hmono h).2.2.2.2.2.1⟩

end ExpertStreaming.VramCache
