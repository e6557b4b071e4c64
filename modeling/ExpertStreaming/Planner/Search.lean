import ExpertStreaming.Planner.Allocate

/-! # The search for a context

What the search returns was accepted and is not above the range. Its lower bound wraps where it
accepts `UINT32_MAX` units; otherwise the search ends, and what it returns lies in the range.
-/
namespace ExpertStreaming.Planner

open Lib Option

/-- The units at which a bisection of a range looks on its way to a target. -/
inductive Visits (target : Nat) : Nat → Nat → Nat → Prop
  | middle {low high} : low ≤ high → Visits target low high (low + (high - low) / 2)
  | up {low high units} : low ≤ high → low + (high - low) / 2 ≤ target →
    Visits target (low + (high - low) / 2 + 1) high units → Visits target low high units
  | down {low high units} : low ≤ high → target < low + (high - low) / 2 →
    Visits target low (low + (high - low) / 2 - 1) units → Visits target low high units

/-- The range ends below `UINT32_MAX` units, or something on the way up to them is rejected. -/
def Cut (fits : Nat → Bool) (alignment low high : Nat) : Prop :=
  high = u32Max → ∃ units, Visits high low high units ∧ fits (units * alignment) = false

structure ContextBounds.InRange (bounds : ContextBounds) : Prop where
  units : bounds.highUnits ≤ u32Max
  tokens : bounds.highUnits * bounds.alignment ≤ u32Max

variable {low high alignment fuel : Nat} {input : PlanInput} {bounds : ContextBounds}
  {base : Plan} {qualities : List KvQuality} {fits : Nat → Bool}

theorem middle_le (h : low ≤ high) : low + (high - low) / 2 ≤ high := by omega

theorem Visits.mem {target units} (h : Visits target low high units) :
    low ≤ units ∧ units ≤ high := by
  induction h with
  | middle hle => exact ⟨Nat.le_add_right _ _, middle_le hle⟩
  | up _ _ _ ih => omega
  | down _ _ _ ih => omega

theorem middle_mul_mod (h : low ≤ high) (htokens : high * alignment ≤ u32Max) :
    (low + (high - low) / 2) * alignment % 2 ^ 32 = (low + (high - low) / 2) * alignment := by
  apply Nat.mod_eq_of_lt
  have := Nat.mul_le_mul_right alignment (middle_le h)
  unfold u32Max at htokens
  omega

/-- Past an accepted middle the way up is still cut, so the lower bound has not wrapped. -/
theorem Cut.above (hcut : Cut fits alignment low high) (hmax : high ≤ u32Max) (hle : low ≤ high)
    (hfits : fits ((low + (high - low) / 2) * alignment) = true) :
    (low + (high - low) / 2 + 1) % 2 ^ 32 = low + (high - low) / 2 + 1 ∧
      Cut fits alignment (low + (high - low) / 2 + 1) high := by
  have hmid := middle_le hle
  unfold u32Max at hmax
  rcases Nat.lt_or_ge high u32Max with hlt | hge
  · unfold u32Max at hlt
    exact ⟨Nat.mod_eq_of_lt (by omega), fun h => absurd h (by unfold u32Max; omega)⟩
  · unfold u32Max at hge
    obtain ⟨units, hvisits, hrejects⟩ := hcut (by unfold u32Max; omega)
    have hlater : Visits high (low + (high - low) / 2 + 1) high units := by
      cases hvisits with
      | middle => exact absurd (hfits.symm.trans hrejects) (by decide)
      | up _ _ hlater => exact hlater
      | down _ hlt _ => omega
    have hmem := hlater.mem
    exact ⟨Nat.mod_eq_of_lt (by omega), fun _ => ⟨units, hlater, hrejects⟩⟩

theorem cut_of_lt (h : high < u32Max) : Cut fits alignment low high :=
  fun heq => absurd heq (Nat.ne_of_lt h)

theorem searchContext_sound {best r} (hmax : high ≤ u32Max) (htokens : high * alignment ≤ u32Max)
    (h : searchContext fits alignment fuel low high best = some r) :
    r = best ∨ ∃ units, units ≤ high ∧ r = units * alignment ∧ fits r = true ∧
      (Cut fits alignment low high → low ≤ units) := by
  induction fuel generalizing low high best with
  | zero => cases h
  | succ fuel ih =>
    simp only [searchContext] at h
    split at h
    next hle =>
      rw [middle_mul_mod hle htokens] at h
      have hmid := middle_le hle
      split at h
      next hfits =>
        rcases ih hmax htokens h with rfl | ⟨units, hhigh, hr, hacc, hlow⟩
        · exact .inr ⟨_, hmid, rfl, hfits, fun _ => Nat.le_add_right _ _⟩
        · refine .inr ⟨units, hhigh, hr, hacc, fun hcut => ?_⟩
          obtain ⟨hmod, hlater⟩ := hcut.above hmax hle hfits
          rw [hmod] at hlow
          have := hlow hlater
          omega
      next =>
      split at h
      · exact .inl (some.inj h).symm
      next hzero =>
      have hsmaller := Nat.mul_le_mul_right alignment
        (show low + (high - low) / 2 - 1 ≤ high by omega)
      rcases ih (by omega) (by omega) h with rfl | ⟨units, hhigh, hr, hacc, hlow⟩
      · exact .inl rfl
      · exact .inr ⟨units, by omega, hr, hacc, fun _ => hlow (cut_of_lt (by omega))⟩
    · exact .inl (some.inj h).symm

/-- Whether a context can be placed at a quality, with the prefill staging or without. -/
def PlanInput.accepts (input : PlanInput) (enabled : Bool) (quality : KvQuality) (context : Nat) :
    Bool :=
  (allocateContext input { expertPrefillStagingEnabled := enabled } context quality).isSome

theorem isSome_allocateContext (plan : Plan) (context : Nat) (quality : KvQuality) :
    (allocateContext input plan context quality).isSome =
      input.accepts plan.expertPrefillStagingEnabled quality context := by
  unfold PlanInput.accepts allocateContext
  split
  · rfl
  dsimp only
  split
  · rfl
  cases addChecked input.mtpBytes input.multimodalBytes with
  | none => rfl
  | some peak =>
    simp only [bind_some]
    cases input.devices.mapM (usableBytes input plan.expertPrefillStagingEnabled peak) with
    | none => rfl
    | some usable =>
      simp only [bind_some]
      cases sumChecked 0 usable with
      | none => rfl
      | some weightSum =>
        simp only [bind_some]
        split
        · rfl
        · simp only [isSome_map]

theorem bestContext_eq (quality : KvQuality) : bestContext fuel input bounds base quality =
    searchContext (input.accepts base.expertPrefillStagingEnabled quality) bounds.alignment fuel
      bounds.lowUnits bounds.highUnits 0 := by
  unfold bestContext
  simp only [isSome_allocateContext]

/-- No quality is accepted all the way up to `UINT32_MAX` units. -/
def Unwrapped (input : PlanInput) (bounds : ContextBounds) (enabled : Bool) : Prop :=
  ∀ quality, Cut (input.accepts enabled quality) bounds.alignment bounds.lowUnits bounds.highUnits

/-- The search with the staging wraps nowhere, nor the one without where that is the next. -/
def SearchesEnd (input : PlanInput) (bounds : ContextBounds) (candidate : Plan) : Prop :=
  Unwrapped input bounds candidate.expertPrefillStagingEnabled ∧
    (candidate.expertPrefillStagingEnabled = true → input.requireExpertPrefillStaging = false →
      (∃ fuel, findContext fuel input bounds candidate (qualitiesDescending input.minKvQuality)
        none = some none) → Unwrapped input bounds false)

/-- In no search that `solve` makes does the lower bound wrap. -/
def PlanInput.SearchEnds (input : PlanInput) : Prop :=
  ∀ candidate bounds, prepare input = .ok (candidate, bounds) → SearchesEnd input bounds candidate

/-- A placement that the planner may choose. -/
structure Chosen (input : PlanInput) (bounds : ContextBounds) (base out : Plan) : Prop where
  allocated : Allocated input
    { base with kvQuality := out.kvQuality, context := out.context } out.context out.kvQuality out
  quality : input.minKvQuality.rank ≤ out.kvQuality.rank
  positive : 0 < out.context
  aligned : ∃ units, units ≤ bounds.highUnits ∧ out.context = units * bounds.alignment ∧
    (Unwrapped input bounds base.expertPrefillStagingEnabled → bounds.lowUnits ≤ units)

theorem chosen_of_best {out best quality} (hin : input.InRange) (hrange : bounds.InRange)
    (hfloor : input.minKvQuality.rank ≤ quality.rank)
    (hbest : bestContext fuel input bounds base quality = some best) (hpos : best ≠ 0)
    (hout : allocateContext input { base with kvQuality := quality, context := best }
      best quality = some out) : Chosen input bounds base out := by
  have hspec := allocateContext_spec hin hout
  have hquality : out.kvQuality = quality := congrArg Plan.kvQuality hspec.frame
  have hcontext : out.context = best := congrArg Plan.context hspec.frame
  refine ⟨?_, hquality ▸ hfloor, by omega, ?_⟩
  · rw [hquality, hcontext]
    exact hspec
  · rw [bestContext_eq] at hbest
    rcases searchContext_sound hrange.units hrange.tokens hbest with
      hzero | ⟨units, hhigh, hr, -, hlow⟩
    · exact absurd hzero hpos
    · exact ⟨units, hhigh, by omega, fun hends => hlow (hends quality)⟩

theorem mem_or_mem_of_mem_ite {α : Type} {a : α} {b : Bool} {x y : Option α}
    (h : a ∈ if b = true then x else y) : a ∈ x ∨ a ∈ y := by
  cases b with
  | true => exact .inl h
  | false => exact .inr h

theorem findContext_chosen {out : Plan} {found : Option Plan} (hin : input.InRange)
    (hrange : bounds.InRange)
    (hfloor : ∀ quality ∈ qualities, input.minKvQuality.rank ≤ quality.rank)
    (hfound : ∀ plan ∈ found, Chosen input bounds base plan)
    (h : findContext fuel input bounds base qualities found = some (some out)) :
    Chosen input bounds base out := by
  induction qualities generalizing found with
  | nil => exact hfound out (mem_def.mpr (some.inj h))
  | cons quality rest ih =>
    have hrest : ∀ q ∈ rest, input.minKvQuality.rank ≤ q.rank :=
      fun q hq => hfloor q (List.mem_cons_of_mem _ hq)
    simp only [findContext] at h
    split at h
    · exact ih hrest hfound h
    · simp only [bind_eq_some_iff] at h
      obtain ⟨best, hbest, h⟩ := h
      split at h
      · exact ih hrest hfound h
      next hpos =>
      split at h
      · cases h
      next attempt hattempt =>
      refine ih hrest ?_ h
      intro plan hplan
      rcases mem_or_mem_of_mem_ite hplan with hplan | hplan
      · obtain rfl := some.inj (mem_def.mp hplan)
        exact chosen_of_best hin hrange (hfloor _ List.mem_cons_self) hbest hpos hattempt
      · exact hfound plan hplan

theorem mem_qualitiesDescending {floor quality} (h : quality ∈ qualitiesDescending floor) :
    floor.rank ≤ quality.rank := by
  simpa using (List.mem_filter.mp h).2

theorem chooseContext_chosen {out dropped} (hin : input.InRange) (hrange : bounds.InRange)
    (h : chooseContext fuel input bounds base = some (.ok (out, dropped))) :
    ∃ enabled, Chosen input bounds { base with expertPrefillStagingEnabled := enabled } out ∧
      (SearchesEnd input bounds base → Unwrapped input bounds enabled) := by
  simp only [chooseContext, bind_eq_some_iff] at h
  obtain ⟨first, hfirst, h⟩ := h
  cases first with
  | some best =>
    obtain ⟨rfl, -⟩ : best = out ∧ false = dropped := by simpa using h
    exact ⟨base.expertPrefillStagingEnabled, findContext_chosen hin hrange
      (fun _ => mem_qualitiesDescending) (by simp) hfirst, And.left⟩
  | none =>
    dsimp only at h
    split at h
    next hoptional =>
      simp only [map_eq_some_iff] at h
      obtain ⟨second, hsecond, h⟩ := h
      cases second with
      | some best =>
        obtain ⟨rfl, -⟩ : best = out ∧ true = dropped := by simpa using h
        exact ⟨false, findContext_chosen hin hrange (fun _ => mem_qualitiesDescending)
          (by simp) hsecond, fun hends => hends.2 hoptional.1 (by simpa using hoptional.2)
            ⟨fuel, hfirst⟩⟩
      | none => cases h
    · split at h
      · cases h
      · cases h

end ExpertStreaming.Planner
