import Mathlib.Logic.Function.Basic

/-! # Replacing a value in two phases

A pool prepares a replacement for its live value off to the side, publishes it, and
then either keeps it for good or takes it back. Freeing the handle of a change ends it, and
takes it back if it was published and not finalized. The structure holds the calls of
such a pool together with what they promise.
-/
namespace ExpertStreaming.Lib

/-- Where a replacement stands. -/
inductive Phase where
  | idle
  | prepared
  | published
  | rolledBack
  | finalized
  deriving DecidableEq

/-- **A pool with the contract of its calls.** `base` is the value before the open change,
`target` the one it aims at. -/
structure TwoPhase where
  State : Type
  Live : Type
  Request : Type
  Choice : Type
  live : State → Live
  base : State → Live
  target : State → Live
  phase : State → Phase
  Meets : Live → Request → Prop
  prepare : Request → Choice → State → State × Bool
  publish : Choice → State → State × Bool
  rollback : Choice → State → State × Bool
  finalize : Choice → State → State × Bool
  free : Choice → State → State × Bool
  prepare_done : ∀ {r c s}, phase s = .idle → (prepare r c s).2 = true →
    phase (prepare r c s).1 = .prepared ∧ live (prepare r c s).1 = live s ∧
      base (prepare r c s).1 = live s ∧ Meets (target (prepare r c s).1) r
  prepare_failed : ∀ {r c s}, phase s = .idle → (prepare r c s).2 = false →
    phase (prepare r c s).1 = .idle ∧ live (prepare r c s).1 = live s
  publish_done : ∀ {c s}, phase s = .prepared → (publish c s).2 = true →
    phase (publish c s).1 = .published ∧ live (publish c s).1 = target s ∧
      base (publish c s).1 = base s
  publish_failed : ∀ {c s}, phase s = .prepared → (publish c s).2 = false →
    phase (publish c s).1 = .prepared ∧ live (publish c s).1 = live s
  rollback_done : ∀ {c s}, phase s = .published →
    (rollback c s).2 = true ∧ phase (rollback c s).1 = .rolledBack ∧
      live (rollback c s).1 = base s
  finalize_done : ∀ {c s}, phase s = .published →
    (finalize c s).2 = true ∧ phase (finalize c s).1 = .finalized ∧
      live (finalize c s).1 = live s
  free_done : ∀ {c s}, phase s ≠ .idle →
    (free c s).2 = true ∧ phase (free c s).1 = .idle ∧
      live (free c s).1 = if phase s = .published then base s else live s

/-! ## The smallest such pool -/

/-- A value, the other side of its open change, and where that stands. -/
structure Cell where
  value : Nat
  other : Nat := 0
  phase : Phase := .idle
  deriving DecidableEq

/-- A cell whose preparation and publication succeed when the caller is lucky. -/
def TwoPhase.cell : TwoPhase where
  State := Cell
  Live := Nat
  Request := Nat
  Choice := Bool
  live := Cell.value
  base s := if s.phase = .prepared then s.value else s.other
  target := Cell.other
  phase := Cell.phase
  Meets v r := v = r
  prepare r lucky s := if lucky then (⟨s.value, r, .prepared⟩, true) else (s, false)
  publish lucky s := if lucky then (⟨s.other, s.value, .published⟩, true) else (s, false)
  rollback _ s := (⟨s.other, s.value, .rolledBack⟩, true)
  finalize _ s := (⟨s.value, s.other, .finalized⟩, true)
  free _ s := (⟨if s.phase = .published then s.other else s.value, 0, .idle⟩, true)
  prepare_done := by
    intro r c s _ hdone
    cases c with
    | false => cases hdone
    | true => exact ⟨rfl, rfl, rfl, rfl⟩
  prepare_failed := by
    intro r c s hidle hfailed
    cases c with
    | false => exact ⟨hidle, rfl⟩
    | true => cases hfailed
  publish_done := by
    intro c s hprepared hdone
    cases c with
    | false => cases hdone
    | true => exact ⟨rfl, rfl, by simp [hprepared]⟩
  publish_failed := by
    intro c s hprepared hfailed
    cases c with
    | false => exact ⟨hprepared, rfl⟩
    | true => cases hfailed
  rollback_done := by
    intro c s hpublished
    exact ⟨rfl, rfl, by simp [hpublished]⟩
  finalize_done := fun _ => ⟨rfl, rfl, rfl⟩
  free_done := by
    intro c s _
    refine ⟨rfl, rfl, ?_⟩
    dsimp only
    split
    next hpublished => simp [hpublished]
    · rfl

end ExpertStreaming.Lib
