import Mathlib.Data.List.Basic

/-! # Runs of a labelled transition relation

A run records every step with the state before and after it, so properties of
single steps and of whole runs can be stated over the same object. The invariant
rule is proved once here.
-/
namespace ExpertStreaming.Lib
open List

variable {σ α : Type}

/-- One step of a run. -/
structure Event (σ α : Type) where
  before : σ
  label : α
  after : σ

/-- `Trace step s evs t`: the events `evs`, in order, lead from `s` to `t`. -/
inductive Trace (step : σ → α → σ → Prop) : σ → List (Event σ α) → σ → Prop
  | nil (s : σ) : Trace step s [] s
  | cons {s a s' evs t} (h : step s a s') (rest : Trace step s' evs t) :
      Trace step s (⟨s, a, s'⟩ :: evs) t

/-- States some run reaches from an initial one. -/
def Reachable (init : σ → Prop) (step : σ → α → σ → Prop) (s : σ) : Prop :=
  ∃ s₀ evs, init s₀ ∧ Trace step s₀ evs s

/-- A list is split in one way at the last element with a property. -/
theorem split_at_last {β : Type} {P : β → Prop} {xs xs' ys ys' : List β} {a a' : β}
    (h : xs ++ a :: ys = xs' ++ a' :: ys') (ha : P a) (ha' : P a') (hys : ∀ y ∈ ys, ¬ P y)
    (hys' : ∀ y ∈ ys', ¬ P y) : a = a' ∧ ys = ys' := by
  rcases append_eq_append_iff.mp h with ⟨zs, -, htail⟩ | ⟨zs, -, htail⟩
  · cases zs with
    | nil => exact cons.inj htail
    | cons z zs =>
      obtain ⟨-, rfl⟩ := cons.inj htail
      exact absurd ha' (hys a' (by simp))
  · cases zs with
    | nil =>
      obtain ⟨rfl, rfl⟩ := cons.inj htail
      exact ⟨rfl, rfl⟩
    | cons z zs =>
      obtain ⟨-, rfl⟩ := cons.inj htail
      exact absurd ha (hys' a (by simp))

namespace Trace

variable {step : σ → α → σ → Prop}

variable {s t : σ} {evs evs' past : List (Event σ α)} {H : List (Event σ α) → σ → Prop}

theorem append {u} (h : Trace step s evs t) (h' : Trace step t evs' u) :
    Trace step s (evs ++ evs') u := by
  induction h with
  | nil => exact h'
  | cons hs _ ih => exact .cons hs (ih h')

theorem snoc {u a} (h : Trace step s evs t) (hs : step t a u) :
    Trace step s (evs ++ [⟨t, a, u⟩]) u :=
  h.append (.cons hs (.nil u))

theorem split {u} (h : Trace step s (evs ++ evs') u) :
    ∃ t, Trace step s evs t ∧ Trace step t evs' u := by
  induction evs generalizing s with
  | nil => exact ⟨s, .nil s, h⟩
  | cons ev rest ih =>
    cases h with
    | cons hs hrest =>
      obtain ⟨t, h₁, h₂⟩ := ih hrest
      exact ⟨t, .cons hs h₁, h₂⟩

/-- A run taken apart at one of its events. -/
theorem of_mem {u} (h : Trace step s evs u) {ev} (hev : ev ∈ evs) :
    ∃ pre post, evs = pre ++ ev :: post ∧ Trace step s pre ev.before ∧
      step ev.before ev.label ev.after ∧ Trace step ev.after post u := by
  obtain ⟨pre, post, rfl⟩ := append_of_mem hev
  obtain ⟨t, hpre, hrest⟩ := h.split
  cases hrest with
  | cons hs hpost => exact ⟨pre, post, rfl, hpre, hs, hpost⟩

/-- What the steps satisfying `C` keep, a run of such steps keeps; it also holds around each. -/
theorem invariant_of {I : σ → Prop} {C : Event σ α → Prop}
    (hstep : ∀ s a s', I s → step s a s' → C ⟨s, a, s'⟩ → I s') (h : Trace step s evs t)
    (hc : ∀ ev ∈ evs, C ev) (hi : I s) :
    I t ∧ ∀ ev ∈ evs, I ev.before ∧ I ev.after ∧ step ev.before ev.label ev.after := by
  induction h with
  | nil => exact ⟨hi, by simp⟩
  | cons hs _ ih =>
    have hi' := hstep _ _ _ hi hs (hc _ (by simp))
    obtain ⟨ht, hev⟩ := ih (fun ev hm => hc ev (mem_cons_of_mem _ hm)) hi'
    refine ⟨ht, ?_⟩
    intro ev hm
    rcases mem_cons.mp hm with rfl | hm
    · exact ⟨hi, hi', hs⟩
    · exact hev ev hm

theorem invariant {I : σ → Prop} (hstep : ∀ s a s', I s → step s a s' → I s')
    (h : Trace step s evs t) (hi : I s) :
    I t ∧ ∀ ev ∈ evs, I ev.before ∧ I ev.after ∧ step ev.before ev.label ev.after :=
  h.invariant_of (C := fun _ => True) (fun s a s' hs ha _ => hstep s a s' hs ha)
    (fun _ _ => trivial) hi

/-- A relation of past and state that every step with `C` keeps holds at the end of such a run. -/
theorem history_of {C : Event σ α → Prop}
    (hstep : ∀ past s a s', H past s → step s a s' → C ⟨s, a, s'⟩ → H (past ++ [⟨s, a, s'⟩]) s')
    (h : Trace step s evs t) (hc : ∀ ev ∈ evs, C ev) (hs : H past s) : H (past ++ evs) t := by
  induction h generalizing past with
  | nil => rw [append_nil]; exact hs
  | cons hfirst _ ih =>
    have hrest := ih (fun ev hm => hc ev (mem_cons_of_mem _ hm))
      (hstep _ _ _ _ hs hfirst (hc _ (by simp)))
    rw [append_assoc] at hrest
    exact hrest

theorem history (hstep : ∀ past s a s', H past s → step s a s' → H (past ++ [⟨s, a, s'⟩]) s')
    (h : Trace step s evs t) (hs : H past s) : H (past ++ evs) t :=
  h.history_of (C := fun _ => True) (fun past s a s' hp hs _ => hstep past s a s' hp hs)
    (fun _ _ => trivial) hs

end Trace

/-- `Leads step C s t`: a run whose labels all satisfy `C` goes from `s` to `t`. -/
def Leads (step : σ → α → σ → Prop) (C : α → Prop) (s t : σ) : Prop :=
  ∃ evs, Trace step s evs t ∧ ∀ ev ∈ evs, C ev.label

namespace Leads

variable {step : σ → α → σ → Prop} {C D : α → Prop} {s t u : σ} {a : α}

theorem refl (s : σ) : Leads step C s s := ⟨[], .nil s, by simp⟩

theorem of_step (h : step s a t) (ha : C a) : Leads step C s t :=
  ⟨_, .cons h (.nil t), by simpa using ha⟩

theorem trans (h : Leads step C s t) (h' : Leads step C t u) : Leads step C s u := by
  obtain ⟨evs, hrun, hall⟩ := h
  obtain ⟨evs', hrun', hall'⟩ := h'
  refine ⟨evs ++ evs', hrun.append hrun', ?_⟩
  intro ev hev
  rcases mem_append.mp hev with hev | hev
  · exact hall ev hev
  · exact hall' ev hev

theorem mono (h : Leads step C s t) (hcd : ∀ a, C a → D a) : Leads step D s t := by
  obtain ⟨evs, hrun, hall⟩ := h
  exact ⟨evs, hrun, fun ev hev => hcd _ (hall ev hev)⟩

theorem invariant {I : σ → Prop} (hstep : ∀ s a s', I s → step s a s' → C a → I s')
    (h : Leads step C s t) (hs : I s) : I t := by
  obtain ⟨evs, hrun, hall⟩ := h
  exact (hrun.invariant_of (C := fun ev => C ev.label) hstep hall hs).1

end Leads

namespace Reachable

variable {init : σ → Prop} {step : σ → α → σ → Prop}

theorem of_init {s} (h : init s) : Reachable init step s := ⟨s, [], h, .nil s⟩

theorem next {s s' a} (h : Reachable init step s) (hs : step s a s') :
    Reachable init step s' := by
  obtain ⟨s₀, evs, h₀, ht⟩ := h
  exact ⟨s₀, _, h₀, ht.snoc hs⟩

theorem invariant {I : σ → Prop} (hinit : ∀ s, init s → I s)
    (hstep : ∀ s a s', I s → step s a s' → I s') {s : σ} (h : Reachable init step s) : I s := by
  obtain ⟨s₀, evs, h₀, ht⟩ := h
  exact (ht.invariant hstep (hinit s₀ h₀)).1

end Reachable

/-! ## Executable steps -/

variable {ω : Type} {next : σ → α → Option (σ × ω)}

/-- The run a schedule produces; `none` when it asks for an impossible step. -/
def execute (next : σ → α → Option (σ × ω)) (s : σ) :
    List α → Option (List (Event σ (α × ω)) × σ)
  | [] => some ([], s)
  | a :: rest =>
    match next s a with
    | none => none
    | some (u, o) => (execute next u rest).map fun r => (⟨s, (a, o), u⟩ :: r.1, r.2)

variable {evs : List (Event σ (α × ω))}

theorem execute_cons {s u a rest} (h : execute next s (a :: rest) = some (evs, u)) :
    ∃ u' o evs', next s a = some (u', o) ∧ execute next u' rest = some (evs', u) ∧
      evs = ⟨s, (a, o), u'⟩ :: evs' := by
  rw [execute] at h
  split at h
  · cases h
  next u' o hstep =>
  obtain ⟨⟨evs', u''⟩, hrest, heq⟩ := Option.map_eq_some_iff.mp h
  cases heq
  exact ⟨u', o, evs', hstep, hrest, rfl⟩

theorem execute_actions {schedule s u} (h : execute next s schedule = some (evs, u)) :
    evs.map (fun ev => ev.label.1) = schedule := by
  induction schedule generalizing s evs with
  | nil => cases h; rfl
  | cons a rest ih =>
    obtain ⟨u', o, evs', -, hrest, rfl⟩ := execute_cons h
    rw [map_cons, ih hrest]

theorem execute_trace {schedule s u} (h : execute next s schedule = some (evs, u)) :
    Trace (fun s a u => next s a.1 = some (u, a.2)) s evs u := by
  induction schedule generalizing s evs with
  | nil => cases h; exact .nil _
  | cons a rest ih =>
    obtain ⟨u', o, evs', hstep, hrest, rfl⟩ := execute_cons h
    exact .cons hstep (ih hrest)

end ExpertStreaming.Lib
