import Mathlib.Data.List.Forall2

/-! # Computations that can fail

A fallible computation that returned went through every one of its parts. These
lemmas take such a computation apart.
-/
namespace ExpertStreaming.Lib
open List

universe u v w

variable {ε : Type u} {α β : Type v}

theorem except_bind_eq_ok {x : Except ε α} {f : α → Except ε β}
    {r : β} : x.bind f = .ok r ↔ ∃ a, x = .ok a ∧ f a = .ok r := by
  cases x with
  | error e => simp [Except.bind]
  | ok a => simp [Except.bind]

theorem except_map_eq_ok {x : Except ε α} {f : α → β}
    {r : β} : x.map f = .ok r ↔ ∃ a, x = .ok a ∧ f a = r := by
  cases x with
  | error e => simp [Except.map]
  | ok a => simp [Except.map]

/-- A property checked on a computation's result gives the result. -/
theorem exists_ok_of_any {x : Except ε α} {p : α → Bool}
    (h : x.toOption.any p = true) : ∃ a, x = .ok a ∧ p a = true := by
  cases x with
  | error e => cases h
  | ok a => exact ⟨a, rfl, h⟩

/-- A list computed entry by entry corresponds to the list it came from. -/
theorem forall₂_of_mapM_eq_some {α : Type u} {β : Type u} {f} :
    ∀ {xs : List α} {ys : List β}, xs.mapM f = some ys → List.Forall₂ (fun x y => f x = some y) xs ys
  | [], ys, h => by
    simp only [mapM_nil, Option.pure_def, Option.some.injEq] at h
    exact h ▸ List.Forall₂.nil
  | x :: xs, ys, h => by
    simp only [mapM_cons, Option.bind_eq_bind, Option.bind_eq_some_iff, Option.pure_def,
      Option.some.injEq] at h
    obtain ⟨y, hy, rest, hrest, rfl⟩ := h
    exact List.Forall₂.cons hy (forall₂_of_mapM_eq_some hrest)

theorem forall₂_of_mapM_eq_ok {ε : Type u} {α β : Type v} {f : α → Except ε β} :
    ∀ {xs : List α} {ys : List β}, xs.mapM f = .ok ys → List.Forall₂ (fun x y => f x = .ok y) xs ys
  | [], ys, h => by
    rw [mapM_nil] at h
    cases h
    exact .nil
  | x :: xs, ys, h => by
    rw [mapM_cons] at h
    obtain ⟨y, hy, h⟩ := except_bind_eq_ok.mp h
    obtain ⟨rest, hrest, h⟩ := except_bind_eq_ok.mp h
    cases h
    exact .cons hy (forall₂_of_mapM_eq_ok hrest)

theorem mapM_eq_ok_of_forall₂ {f : α → Except ε β} {xs : List α}
    {ys : List β} (h : List.Forall₂ (fun x y => f x = .ok y) xs ys) : xs.mapM f = .ok ys := by
  induction h with
  | nil => rfl
  | cons hy _ ih =>
    rw [mapM_cons, hy, ih]
    rfl

/-- What corresponds entry by entry agrees on every image the entries agree on. -/
theorem map_eq_map_of_forall₂ {α : Type u} {γ : Type w} {R : α → β → Prop} {f : α → γ}
    {g : β → γ} (hR : ∀ x y, R x y → f x = g y) {xs : List α} {ys : List β}
    (h : List.Forall₂ R xs ys) : xs.map f = ys.map g := by
  induction h with
  | nil => rfl
  | cons hy _ ih => rw [map_cons, map_cons, hR _ _ hy, ih]

/-- An entry of the image of a correspondence has an entry it came from. -/
theorem exists_of_forall₂_right {α : Type u} {R : α → β → Prop} {xs : List α}
    {ys : List β} (h : List.Forall₂ R xs ys) {y : β} (hy : y ∈ ys) : ∃ x ∈ xs, R x y := by
  induction h with
  | nil => cases hy
  | cons hr _ ih =>
    rcases mem_cons.mp hy with rfl | hy
    · exact ⟨_, mem_cons_self, hr⟩
    · obtain ⟨x, hx, hxy⟩ := ih hy
      exact ⟨x, mem_cons_of_mem _ hx, hxy⟩

/-! ## Checks -/

/-- The value, or the error that stands for its absence. -/
def orError {ε : Type u} {α : Type v} (e : ε) : Option α → Except ε α
  | none => .error e
  | some a => .ok a

@[simp] theorem orError_eq_ok {e : ε} {o : Option α} {a : α} :
    orError e o = .ok a ↔ o = some a := by
  cases o with
  | none => simp [orError]
  | some b => simp [orError]

/-- Raise an error unless a condition holds. -/
def unlessError {ε : Type u} (e : ε) (p : Prop) [Decidable p] : Except ε Unit :=
  if p then .ok () else .error e

@[simp] theorem unlessError_eq_ok {e : ε} {p : Prop} [Decidable p] {u : Unit} :
    unlessError e p = .ok u ↔ p := by
  by_cases hp : p
  · simp [unlessError, hp]
  · simp [unlessError, hp]

/-! ## Loops -/

/-- **A loop that returned**, by the elements it has seen: an invariant of the elements so far
and the state holds of all of them at the end. -/
theorem foldlM_seen {α : Type w} {σ : Type v} {f : σ → α → Except ε σ} {I : List α → σ → Prop}
    (hstep : ∀ seen x s t, I seen s → f s x = .ok t → I (seen ++ [x]) t) {seen xs : List α}
    {s t : σ} (hs : I seen s) (h : xs.foldlM f s = .ok t) : I (seen ++ xs) t := by
  induction xs generalizing seen s with
  | nil =>
    rw [foldlM_nil] at h
    cases h
    rw [append_nil]
    exact hs
  | cons x rest ih =>
    rw [foldlM_cons] at h
    obtain ⟨u, hu, hrest⟩ := except_bind_eq_ok.mp h
    have := ih (hstep seen x s u hs hu) hrest
    rwa [append_assoc] at this

end ExpertStreaming.Lib
