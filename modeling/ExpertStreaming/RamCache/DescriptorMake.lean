import ExpertStreaming.Lib.Fallible
import ExpertStreaming.Lib.Strided
import ExpertStreaming.RamCache.PlanSound

/-! # The RAM expert cache: descriptors

`descriptor::make` is the only way to a descriptor: it checks the geometry of one expert
component, its strides and its extents in the source files with checked 64-bit operations. What
it accepts is a `Descriptor` of the cache. The strides are checked by one equation only: the span
of the tensor is its number of bytes.
-/
namespace ExpertStreaming.RamCache
open Lib List

/-- The throw sites of `descriptor::make`. -/
inductive DescriptorError where
  | rank
  | quantAxis
  | quantGeometry
  | alignment
  | modelIdentity
  | noExtents
  | zeroDimension
  | quantizedDimension
  | quantizedRow
  | tensorGeometry
  | zeroStride
  | strideGeometry
  | inactiveAxes
  | notPacked
  | unknownSource
  | sourceIdentity
  | emptyExtent
  | extentAlignment
  | outsideFile
  | extentBytes
  | extentsOverlap
  | extentsMismatch
  deriving DecidableEq

def checkedMul (a b : Nat) : Option Nat :=
  if a ≠ 0 ∧ b > u64Max / a then none else some (a * b)

abbrev Axis := Fin 4

structure DescriptorSpec where
  key : ExpertKey
  ggmlType : Nat := 0
  rank : Nat := 0
  quantAxis : Nat := 0
  blockElements : Nat := 1
  blockBytes : Nat := 1
  sourceAlignment : Nat := 1
  dimensions : Axis → Nat := fun _ => 0
  strides : Axis → Nat := fun _ => 0
  modelIdentity : SourceIdentity
  extents : List SourceExtent := []

def SourceIdentity.isZero (value : SourceIdentity) : Bool := value.high == 0 && value.low == 0

namespace DescriptorSpec

variable (spec : DescriptorSpec)

def axes : List Axis := (List.finRange 4).filter fun axis => axis.val < spec.rank

/-- What the loop over the axes carries. -/
structure Geometry where
  expectedBytes : Nat
  tensorSpan : Nat
  deriving DecidableEq

/-- The units of an axis, in blocks for the quantized one, and the bytes it multiplies by. -/
def axisExtent (axis : Axis) : Except DescriptorError (Nat × Nat) :=
  if axis.val = spec.quantAxis then do
    let rounded ← orError .quantizedDimension
      (addChecked (spec.dimensions axis) (spec.blockElements - 1))
    let axisUnits := rounded / spec.blockElements
    let axisBytes ← orError .quantizedRow (checkedMul axisUnits spec.blockBytes)
    .ok (axisUnits, axisBytes)
  else .ok (spec.dimensions axis, spec.dimensions axis)

def addAxis (g : Geometry) (axis : Axis) : Except DescriptorError Geometry := do
  unlessError .zeroDimension (spec.dimensions axis ≠ 0)
  let (axisUnits, axisBytes) ← spec.axisExtent axis
  let expectedBytes ← orError .tensorGeometry (checkedMul g.expectedBytes axisBytes)
  unlessError .zeroStride (spec.strides axis ≠ 0)
  let axisOffset ← orError .strideGeometry (checkedMul (axisUnits - 1) (spec.strides axis))
  let tensorSpan ← orError .strideGeometry (addChecked g.tensorSpan axisOffset)
  .ok ⟨expectedBytes, tensorSpan⟩

/-- What the loop over the extents carries. -/
structure Gathered where
  extentBytes : Nat := 0
  intervals : OrdMap Nat (List Span) := .empty

def addExtent (sourceSizes : OrdMap Nat Nat) (g : Gathered) (extent : SourceExtent) :
    Except DescriptorError Gathered := do
  let sourceSize ← orError .unknownSource (sourceSizes.find? extent.source)
  unlessError .sourceIdentity (extent.identity.isZero = false)
  unlessError .emptyExtent (extent.length ≠ 0)
  unlessError .extentAlignment (extent.offset % spec.sourceAlignment = 0 ∧
    extent.length % spec.sourceAlignment = 0)
  let stop ← orError .outsideFile (addChecked extent.offset extent.length)
  unlessError .outsideFile (stop ≤ sourceSize)
  let extentBytes ← orError .extentBytes (addChecked g.extentBytes extent.length)
  .ok ⟨extentBytes, g.intervals.insert extent.source
    ((g.intervals.find? extent.source).getD [] ++ [(extent.offset, stop)])⟩

/-- No range of one source starts before the end of the one sorted before it. -/
def rangesApart (ranges : List Span) : Prop :=
  (sortIntervals ranges).IsChain fun previous next => previous.2 ≤ next.1

instance (ranges : List Span) : Decidable (rangesApart ranges) :=
  inferInstanceAs (Decidable (List.IsChain _ _))

end DescriptorSpec

structure CheckedDescriptor where
  spec : DescriptorSpec
  bytes : Nat

open DescriptorSpec in
def descriptorMake (spec : DescriptorSpec) (sourceSizes : OrdMap Nat Nat) :
    Except DescriptorError CheckedDescriptor := do
  unlessError .rank (spec.rank ≠ 0 ∧ spec.rank ≤ 4)
  unlessError .quantAxis (spec.quantAxis < spec.rank)
  unlessError .quantGeometry (spec.blockElements ≠ 0 ∧ spec.blockBytes ≠ 0)
  unlessError .alignment (spec.sourceAlignment ≠ 0 ∧
    spec.sourceAlignment &&& (spec.sourceAlignment - 1) = 0)
  unlessError .modelIdentity (spec.modelIdentity.isZero = false)
  unlessError .noExtents (spec.extents ≠ [])
  let geometry ← spec.axes.foldlM spec.addAxis ⟨1, spec.blockBytes⟩
  unlessError .inactiveAxes (∀ axis : Axis, spec.rank ≤ axis.val →
    spec.dimensions axis = 0 ∧ spec.strides axis = 0)
  unlessError .notPacked (geometry.tensorSpan = geometry.expectedBytes)
  let gathered ← spec.extents.foldlM (spec.addExtent sourceSizes) {}
  unlessError .extentsOverlap (∀ ranges ∈ gathered.intervals.values, rangesApart ranges)
  unlessError .extentsMismatch (gathered.extentBytes = geometry.expectedBytes)
  .ok ⟨spec, geometry.expectedBytes⟩

/-! ## The geometry -/

theorem checkedMul_eq {a b r} (h : checkedMul a b = some r) : r = a * b := by
  unfold checkedMul at h
  split at h
  · cases h
  · exact (Option.some.inj h).symm

namespace DescriptorSpec

variable {spec : DescriptorSpec} {sourceSizes : OrdMap Nat Nat}

/-- The length of an axis in blocks, of `blockElements` on the quantized one. -/
def units (spec : DescriptorSpec) (axis : Axis) : Nat :=
  if axis.val = spec.quantAxis then
    (spec.dimensions axis + (spec.blockElements - 1)) / spec.blockElements
  else spec.dimensions axis

def blocks (spec : DescriptorSpec) : Nat := (spec.axes.map spec.units).prod

theorem mem_axes {axis} : axis ∈ spec.axes ↔ axis.val < spec.rank := by
  simp [axes]

theorem nodup_axes : spec.axes.Nodup := (List.nodup_finRange 4).filter _

theorem axisExtent_eq_ok {axis u b} (h : spec.axisExtent axis = .ok (u, b)) :
    u = spec.units axis ∧
      b = spec.units axis * if axis.val = spec.quantAxis then spec.blockBytes else 1 := by
  unfold axisExtent at h
  split at h
  next hquant =>
    obtain ⟨rounded, hrounded, h⟩ := except_bind_eq_ok.mp h
    obtain ⟨axisBytes, hbytes, h⟩ := except_bind_eq_ok.mp h
    obtain rfl := add_of_addChecked (orError_eq_ok.mp hrounded)
    obtain rfl := checkedMul_eq (orError_eq_ok.mp hbytes)
    cases h
    rw [units, if_pos hquant, if_pos hquant]
    exact ⟨rfl, rfl⟩
  next hquant =>
  cases h
  rw [units, if_neg hquant, if_neg hquant]
  exact ⟨rfl, (Nat.mul_one _).symm⟩

/-- What the loop has computed from the axes it has seen. -/
structure Measured (spec : DescriptorSpec) (seen : List Axis) (g : Geometry) : Prop where
  bytes : g.expectedBytes = (seen.map spec.units).prod *
    (seen.map fun axis => if axis.val = spec.quantAxis then spec.blockBytes else 1).prod
  span : g.tensorSpan = stridedSpan spec.units spec.strides spec.blockBytes seen
  dimensions : ∀ axis ∈ seen, spec.dimensions axis ≠ 0

theorem Measured.addAxis {seen g g' axis} (h : spec.Measured seen g)
    (hadd : spec.addAxis g axis = .ok g') :
    spec.Measured (seen ++ [axis]) g' := by
  obtain ⟨_, hdimension, hadd⟩ := except_bind_eq_ok.mp hadd
  obtain ⟨⟨u, b⟩, hextent, hadd⟩ := except_bind_eq_ok.mp hadd
  obtain ⟨expected, hexpected, hadd⟩ := except_bind_eq_ok.mp hadd
  obtain ⟨_, -, hadd⟩ := except_bind_eq_ok.mp hadd
  obtain ⟨offset, hoffset, hadd⟩ := except_bind_eq_ok.mp hadd
  obtain ⟨span, hspan, hadd⟩ := except_bind_eq_ok.mp hadd
  obtain ⟨rfl, rfl⟩ := axisExtent_eq_ok hextent
  obtain rfl := checkedMul_eq (orError_eq_ok.mp hexpected)
  obtain rfl := checkedMul_eq (orError_eq_ok.mp hoffset)
  obtain rfl := add_of_addChecked (orError_eq_ok.mp hspan)
  cases hadd
  refine ⟨?_, ?_, ?_⟩
  · simp only [h.bytes, map_append, map_cons, map_nil, prod_append,
      prod_cons, prod_nil, Nat.mul_one]
    exact Nat.mul_mul_mul_comm _ _ _ _
  · simp [h.span, stridedSpan, Nat.add_assoc]
  · intro other hother
    rcases mem_append.mp hother with hother | hother
    · exact h.dimensions other hother
    · rw [mem_singleton.mp hother]
      exact unlessError_eq_ok.mp hdimension

theorem prod_blockBytes (hquant : spec.quantAxis < spec.rank) (hrank : spec.rank ≤ 4) :
    (spec.axes.map fun axis => if axis.val = spec.quantAxis then spec.blockBytes else 1).prod =
      spec.blockBytes := by
  have hmem : (⟨spec.quantAxis, by omega⟩ : Axis) ∈ spec.axes := mem_axes.mpr hquant
  have hother : ∀ axis : Axis, axis ≠ ⟨spec.quantAxis, by omega⟩ → axis ∈ spec.axes →
      (if axis.val = spec.quantAxis then spec.blockBytes else 1) = 1 := by
    intro axis hne _
    exact if_neg fun heq => hne (Fin.ext heq)
  rw [prod_map_eq_pow_single _ _ hother, count_eq_one_of_mem nodup_axes hmem]
  simp

theorem units_pos {axis} (hblock : spec.blockElements ≠ 0) (hdimension : spec.dimensions axis ≠ 0) :
    0 < spec.units axis := by
  unfold units
  split
  · exact Nat.div_pos (by omega) (by omega)
  · omega

/-! ## The extents -/

def rangesOf (seen : List SourceExtent) (source : Nat) : List Span :=
  (seen.filter fun extent => extent.source = source).map fun extent =>
    (extent.offset, extent.offset + extent.length)

/-- What the loop has collected from the extents it has seen. -/
structure Collected (sourceSizes : OrdMap Nat Nat) (seen : List SourceExtent) (g : Gathered) :
    Prop where
  bytes : g.extentBytes = (seen.map SourceExtent.length).sum
  ranges : ∀ source, (g.intervals.find? source).getD [] = rangesOf seen source
  inside : ∀ extent ∈ seen, extent.length ≠ 0 ∧
    ∃ size, sourceSizes.find? extent.source = some size ∧ extent.offset + extent.length ≤ size

theorem Collected.addExtent {seen g g' extent} (h : Collected sourceSizes seen g)
    (hadd : spec.addExtent sourceSizes g extent = .ok g') :
    Collected sourceSizes (seen ++ [extent]) g' := by
  obtain ⟨size, hsize, hadd⟩ := except_bind_eq_ok.mp hadd
  obtain ⟨_, -, hadd⟩ := except_bind_eq_ok.mp hadd
  obtain ⟨_, hlength, hadd⟩ := except_bind_eq_ok.mp hadd
  obtain ⟨_, -, hadd⟩ := except_bind_eq_ok.mp hadd
  obtain ⟨stop, hstop, hadd⟩ := except_bind_eq_ok.mp hadd
  obtain ⟨_, hinside, hadd⟩ := except_bind_eq_ok.mp hadd
  obtain ⟨total, htotal, hadd⟩ := except_bind_eq_ok.mp hadd
  obtain rfl := add_of_addChecked (orError_eq_ok.mp hstop)
  obtain rfl := add_of_addChecked (orError_eq_ok.mp htotal)
  cases hadd
  refine ⟨?_, ?_, ?_⟩
  · simp [h.bytes]
  · intro source
    rw [OrdMap.find?_insert]
    split
    next heq =>
      subst heq
      simp [h.ranges, rangesOf]
    next hne =>
      have : ¬ extent.source = source := fun heq => hne heq.symm
      simp [h.ranges, rangesOf, this]
  · intro other hother
    rcases mem_append.mp hother with hother | hother
    · exact h.inside other hother
    · rw [mem_singleton.mp hother]
      exact ⟨unlessError_eq_ok.mp hlength, size, orError_eq_ok.mp hsize,
        unlessError_eq_ok.mp hinside⟩

theorem pairwise_of_isChain {ranges : List Span} (hne : ∀ r ∈ ranges, r.1 < r.2)
    (h : ranges.IsChain fun previous next => previous.2 ≤ next.1) :
    ranges.Pairwise fun a b => a.2 ≤ b.1 := by
  induction ranges with
  | nil => exact .nil
  | cons r rest ih =>
    have hrest := ih (fun s hs => hne s (mem_cons_of_mem _ hs)) h.tail
    refine .cons (fun s hs => ?_) hrest
    cases rest with
    | nil => cases hs
    | cons first rest =>
      have hfirst : r.2 ≤ first.1 := (isChain_cons_cons.mp h).1
      rcases mem_cons.mp hs with rfl | hs
      · exact hfirst
      · have := hne first (by simp)
        have := (pairwise_cons.mp hrest).1 s hs
        omega

def Disjoint (a b : Span) : Prop := a.2 ≤ b.1 ∨ b.2 ≤ a.1

theorem pairwise_disjoint_of_rangesApart {ranges : List Span} (hne : ∀ r ∈ ranges, r.1 < r.2)
    (h : rangesApart ranges) : ranges.Pairwise Disjoint := by
  have hsorted : (sortIntervals ranges).Pairwise Disjoint :=
    (pairwise_of_isChain (fun r hr => hne r (mem_sortIntervals.mp hr)) h).imp Or.inl
  exact (List.Perm.pairwise_iff Or.symm (perm_insertionSort _ ranges)).mp hsorted

def ExtentsApart (a b : SourceExtent) : Prop :=
  a.source = b.source → Region.Apart ⟨a.offset, a.length⟩ ⟨b.offset, b.length⟩

theorem pairwise_extentsApart {extents : List SourceExtent}
    (h : ∀ source, (rangesOf extents source).Pairwise Disjoint) :
    extents.Pairwise ExtentsApart := by
  induction extents with
  | nil => exact .nil
  | cons extent rest ih =>
    refine .cons (fun other hother hsource => ?_) (ih fun source => ?_)
    · have hpairs := h extent.source
      rw [rangesOf, filter_cons_of_pos (by simp), map_cons] at hpairs
      refine (pairwise_cons.mp hpairs).1 (other.offset, other.offset + other.length) ?_
      exact mem_map.mpr ⟨other, mem_filter.mpr ⟨hother, by simp [hsource]⟩, rfl⟩
    · refine (h source).sublist ?_
      exact ((sublist_cons_self _ _).filter _).map _

/-! ## What is accepted -/

/-- What the checks leave of an accepted specification. -/
structure Accepted (spec : DescriptorSpec) (sourceSizes : OrdMap Nat Nat) (bytes : Nat) : Prop where
  bytes_eq : bytes = spec.blockBytes * spec.blocks
  block_pos : 0 < spec.blockBytes
  units_pos : ∀ axis ∈ spec.axes, 0 < spec.units axis
  span : stridedSpan spec.units spec.strides spec.blockBytes spec.axes = bytes
  extents_sum : (spec.extents.map SourceExtent.length).sum = bytes
  inside : ∀ extent ∈ spec.extents, ∃ size, sourceSizes.find? extent.source = some size ∧
    extent.offset + extent.length ≤ size
  apart : spec.extents.Pairwise ExtentsApart

theorem accepted_of_make {d} (h : descriptorMake spec sourceSizes = .ok d) :
    d.spec = spec ∧ spec.Accepted sourceSizes d.bytes := by
  obtain ⟨_, hrank, h⟩ := except_bind_eq_ok.mp h
  obtain ⟨_, hquant, h⟩ := except_bind_eq_ok.mp h
  obtain ⟨_, hblock, h⟩ := except_bind_eq_ok.mp h
  obtain ⟨_, -, h⟩ := except_bind_eq_ok.mp h
  obtain ⟨_, -, h⟩ := except_bind_eq_ok.mp h
  obtain ⟨_, -, h⟩ := except_bind_eq_ok.mp h
  obtain ⟨geometry, hgeometry, h⟩ := except_bind_eq_ok.mp h
  obtain ⟨_, -, h⟩ := except_bind_eq_ok.mp h
  obtain ⟨_, hpacked, h⟩ := except_bind_eq_ok.mp h
  obtain ⟨gathered, hgathered, h⟩ := except_bind_eq_ok.mp h
  obtain ⟨_, hapart, h⟩ := except_bind_eq_ok.mp h
  obtain ⟨_, hmatch, h⟩ := except_bind_eq_ok.mp h
  rw [unlessError_eq_ok] at hrank hquant hblock hpacked hapart hmatch
  cases h
  have hstart : spec.Measured [] ⟨1, spec.blockBytes⟩ := ⟨rfl, rfl, nofun⟩
  have hmeasured := foldlM_seen (fun _ _ _ _ hm hadd => Measured.addAxis hm hadd) hstart hgeometry
  have hempty : Collected sourceSizes [] {} := ⟨rfl, fun _ => rfl, nofun⟩
  have hcollected :=
    foldlM_seen (fun _ _ _ _ hc hadd => Collected.addExtent hc hadd) hempty hgathered
  rw [nil_append] at hmeasured hcollected
  refine ⟨rfl, ?_, Nat.pos_of_ne_zero hblock.2, ?_, ?_, ?_, ?_, ?_⟩
  · rw [hmeasured.bytes, prod_blockBytes hquant hrank.2, Nat.mul_comm]
    rfl
  · exact fun axis haxis => DescriptorSpec.units_pos hblock.1 (hmeasured.dimensions axis haxis)
  · rw [← hmeasured.span, hpacked]
  · rw [← hcollected.bytes, hmatch]
  · exact fun extent hextent => (hcollected.inside extent hextent).2
  · refine pairwise_extentsApart fun source => ?_
    rw [← hcollected.ranges source]
    cases hfound : gathered.intervals.find? source with
    | none => exact .nil
    | some ranges =>
      have hranges := hcollected.ranges source
      rw [hfound, Option.getD_some] at hranges
      refine pairwise_disjoint_of_rangesApart (fun r hr => ?_)
        (hapart ranges (OrdMap.mem_values.mpr ⟨source, hfound⟩))
      rw [Option.getD_some, hranges, rangesOf] at hr
      obtain ⟨extent, hextent, rfl⟩ := mem_map.mp hr
      have := (hcollected.inside extent (mem_filter.mp hextent).1).1
      omega

/-- In some order of the axes, each stride taken passes over all that the axes behind it span. -/
def StridesNest (spec : DescriptorSpec) : Prop :=
  ∃ order, order.Perm spec.axes ∧ Nested spec.units spec.strides spec.blockBytes order

def blockAt (spec : DescriptorSpec) (index : Axis → Nat) : Region :=
  ⟨stridedOffset spec.strides spec.axes index, spec.blockBytes⟩

theorem StridesNest.blocksApart (h : spec.StridesNest) :
    BlocksApart spec.units spec.strides spec.blockBytes spec.axes := by
  obtain ⟨order, hperm, hnested⟩ := h
  intro i j hi hj hne
  rw [← stridedOffset_perm hperm, ← stridedOffset_perm hperm]
  obtain ⟨axis, haxis, hdiff⟩ := hne
  exact hnested.apart (fun b hb => hi b (hperm.mem_iff.mp hb))
    (fun b hb => hj b (hperm.mem_iff.mp hb)) ⟨axis, hperm.mem_iff.mpr haxis, hdiff⟩

theorem Accepted.stridesNest {bytes} (h : spec.Accepted sourceSizes bytes)
    (hapart : BlocksApart spec.units spec.strides spec.blockBytes spec.axes) :
    spec.StridesNest :=
  hapart.exists_nested nodup_axes h.block_pos h.units_pos (h.span.trans h.bytes_eq)

/-- **An accepted descriptor**: its extents add up to its bytes, lie in their sources and share no
byte; its blocks are disjoint exactly when the strides nest. -/
theorem make_geometry {d : CheckedDescriptor} (h : descriptorMake spec sourceSizes = .ok d) :
    d.spec = spec ∧
    d.bytes = spec.blockBytes * spec.blocks ∧
    (spec.extents.map SourceExtent.length).sum = d.bytes ∧
    (∀ extent ∈ spec.extents, ∃ size, sourceSizes.find? extent.source = some size ∧
      extent.offset + extent.length ≤ size) ∧
    spec.extents.Pairwise ExtentsApart ∧
    (∀ index, IsIndex spec.units spec.axes index → (spec.blockAt index).stop ≤ d.bytes) ∧
    (spec.StridesNest ↔ ∀ i j, IsIndex spec.units spec.axes i → IsIndex spec.units spec.axes j →
      (∃ axis ∈ spec.axes, i axis ≠ j axis) → (spec.blockAt i).Apart (spec.blockAt j)) := by
  obtain ⟨hspec, haccepted⟩ := accepted_of_make h
  refine ⟨hspec, haccepted.bytes_eq, haccepted.extents_sum, haccepted.inside, haccepted.apart,
    fun index hindex => ?_, fun hnest => hnest.blocksApart, haccepted.stridesNest⟩
  rw [← haccepted.span]
  exact stridedOffset_add_block_le hindex

def threeByThree (first second : Nat) : DescriptorSpec where
  key := ⟨0, 0, .gate⟩
  rank := 2
  dimensions := fun axis => if axis.val < 2 then 3 else 0
  strides := fun axis => if axis = 0 then first else if axis = 1 then second else 0
  modelIdentity := ⟨1, 1⟩
  extents := [⟨7, ⟨1, 2⟩, 0, 9⟩]

def oneSource : OrdMap Nat Nat := OrdMap.empty.insert 7 256

theorem make_geometry_rows : ∃ d, descriptorMake (threeByThree 1 3) oneSource = .ok d ∧
    d.bytes = 1 * (threeByThree 1 3).blocks ∧
    ∀ i j, IsIndex (threeByThree 1 3).units (threeByThree 1 3).axes i →
      IsIndex (threeByThree 1 3).units (threeByThree 1 3).axes j →
      (∃ axis ∈ (threeByThree 1 3).axes, i axis ≠ j axis) →
      ((threeByThree 1 3).blockAt i).Apart ((threeByThree 1 3).blockAt j) := by
  obtain ⟨d, hmake, -⟩ := exists_ok_of_any
    (show (descriptorMake (threeByThree 1 3) oneSource).toOption.any (fun _ => true) = true by
      decide +kernel)
  obtain ⟨-, hbytes, -, -, -, -, hnest⟩ := make_geometry hmake
  refine ⟨d, hmake, hbytes, hnest.mp ⟨[1, 0], ?_, ?_⟩⟩
  · decide +kernel
  · exact ⟨.inr (by decide +kernel), .inr (by decide +kernel), trivial⟩

/-- Strides of two and two satisfy the equation, and two different blocks lie at one place. -/
theorem make_accepts_overlapping_blocks :
    (∃ d, descriptorMake (threeByThree 2 2) oneSource = .ok d) ∧
    IsIndex (threeByThree 2 2).units (threeByThree 2 2).axes (Pi.single 0 1) ∧
    IsIndex (threeByThree 2 2).units (threeByThree 2 2).axes (Pi.single 1 1) ∧
    ¬ ((threeByThree 2 2).blockAt (Pi.single 0 1)).Apart
      ((threeByThree 2 2).blockAt (Pi.single 1 1)) := by
  refine ⟨?_, by decide +kernel, by decide +kernel, by decide +kernel⟩
  obtain ⟨d, hmake, -⟩ := exists_ok_of_any
    (show (descriptorMake (threeByThree 2 2) oneSource).toOption.any (fun _ => true) = true by
      decide +kernel)
  exact ⟨d, hmake⟩

end DescriptorSpec
end ExpertStreaming.RamCache
