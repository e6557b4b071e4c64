import Mathlib.Logic.Function.Basic
import Mathlib.Data.List.Basic

/-! # Prepared replacements

A value is replaced in two steps: the new one is prepared off to the side, then
publication exchanges it with the live one, so that the old value is kept and a
rollback can exchange them again. Doing either twice in a row does nothing more.
-/
namespace ExpertStreaming.Lib

variable {κ α : Type} [DecidableEq κ]

/-- The value that is not live, and whether it is the old one. -/
structure Handle (α : Type) where
  side : α
  swapped : Bool := false
  deriving DecidableEq

namespace Handle

/-- Exchanges the prepared value with the live one. -/
def publish (h : Handle α) (live : κ → α) (place : κ) : (κ → α) × Handle α :=
  if h.swapped then (live, h) else (Function.update live place h.side, ⟨live place, true⟩)

/-- Exchanges them back. -/
def rollback (h : Handle α) (live : κ → α) (place : κ) : (κ → α) × Handle α :=
  if h.swapped then (Function.update live place h.side, ⟨live place, false⟩) else (live, h)

variable {h : Handle α}

theorem publish_eq (hs : h.swapped = false) (live : κ → α) (place : κ) :
    h.publish live place = (Function.update live place h.side, ⟨live place, true⟩) := by
  rw [publish, hs]; rfl

theorem rollback_eq (hs : h.swapped = true) (live : κ → α) (place : κ) :
    h.rollback live place = (Function.update live place h.side, ⟨live place, false⟩) := by
  rw [rollback, hs]; rfl

theorem rollback_publish (hs : h.swapped = false) (live : κ → α) (place : κ) :
    (h.publish live place).2.rollback (h.publish live place).1 place = (live, h) := by
  rw [publish_eq hs, rollback_eq rfl]
  obtain ⟨side, swapped⟩ := h
  obtain rfl : swapped = false := hs
  simp

theorem publish_rollback (hs : h.swapped = true) (live : κ → α) (place : κ) :
    (h.rollback live place).2.publish (h.rollback live place).1 place = (live, h) := by
  rw [rollback_eq hs, publish_eq rfl]
  obtain ⟨side, swapped⟩ := h
  obtain rfl : swapped = true := hs
  simp

theorem rollback_update_of_ne {live : κ → α} {place other : κ} (hne : other ≠ place) (a : α) :
    (h.rollback (Function.update live other a) place).1 =
      Function.update (h.rollback live place).1 other a := by
  unfold rollback
  split
  · exact Function.update_comm hne _ _ _
  · rfl

theorem rollback_apply_of_ne {live : κ → α} {place other : κ} (hne : other ≠ place) :
    (h.rollback live place).1 other = live other := by
  unfold rollback
  split
  · exact Function.update_of_ne hne _ _
  · rfl

end Handle

/-! ## Many places -/

/-- The live values after all rollbacks, the last place first. -/
def undoAll (live : κ → α) (handles : List (κ × Handle α)) : κ → α :=
  handles.foldr (fun h l => (h.2.rollback l h.1).1) live

@[simp] theorem undoAll_cons (live : κ → α) (h : κ × Handle α) (rest : List (κ × Handle α)) :
    undoAll live (h :: rest) = (h.2.rollback (undoAll live rest) h.1).1 := rfl

/-- The rollbacks leave other places alone. -/
theorem undoAll_apply_of_ne {live : κ → α} {handles : List (κ × Handle α)} {place : κ}
    (h : ∀ entry ∈ handles, entry.1 ≠ place) : undoAll live handles place = live place := by
  induction handles with
  | nil => rfl
  | cons entry rest ih =>
    rw [undoAll_cons, Handle.rollback_apply_of_ne (Ne.symm (h entry (by simp)))]
    exact ih fun e he => h e (List.mem_cons_of_mem _ he)

theorem undoAll_update {live : κ → α} {handles : List (κ × Handle α)} {place : κ}
    (h : ∀ entry ∈ handles, entry.1 ≠ place) (a : α) :
    undoAll (Function.update live place a) handles =
      Function.update (undoAll live handles) place a := by
  induction handles with
  | nil => rfl
  | cons entry rest ih =>
    rw [undoAll_cons, ih fun e he => h e (List.mem_cons_of_mem _ he),
      Handle.rollback_update_of_ne (Ne.symm (h entry (by simp))), undoAll_cons]

end ExpertStreaming.Lib
