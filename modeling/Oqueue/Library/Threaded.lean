import Mathlib.Data.List.Basic

/-!
# A left-to-right pass that leaves a state behind

Each item of a list is handled in the state the items before it left.
-/

namespace Threaded

variable {σ α β γ δ : Type*}

/-- Handles the items in order, with what each gives. -/
def threaded (step : σ → α → σ × β) : σ → List α → σ × List β
  | state, [] => (state, [])
  | state, item :: rest =>
    let one := step state item
    let more := threaded step one.1 rest
    (more.1, one.2 :: more.2)

variable {step : σ → α → σ × β}

theorem threaded_append (state : σ) (xs ys : List α) :
    threaded step state (xs ++ ys) =
      ((threaded step (threaded step state xs).1 ys).1,
        (threaded step state xs).2 ++ (threaded step (threaded step state xs).1 ys).2) := by
  induction xs generalizing state with
  | nil => rfl
  | cons x xs ih => simp [threaded, ih]

theorem threaded_map (f : γ → α) (state : σ) (xs : List γ) :
    threaded step state (xs.map f) = threaded (fun state x => step state (f x)) state xs := by
  induction xs generalizing state with
  | nil => rfl
  | cons x xs ih => simp [threaded, ih]

theorem threaded_groups (items : γ → List α) (wrap : γ → List β → δ) (unwrap : δ → List β)
    (inverse : ∀ group given, unwrap (wrap group given) = given) (state : σ) (groups : List γ) :
    let whole := threaded (fun state group =>
      ((threaded step state (items group)).1, wrap group (threaded step state (items group)).2))
      state groups
    (whole.1, whole.2.flatMap unwrap) = threaded step state (groups.flatMap items) := by
  induction groups generalizing state with
  | nil => rfl
  | cons group rest ih =>
    have tail := ih (threaded step state (items group)).1
    dsimp only at tail
    rw [List.flatMap_cons, threaded_append, ← tail]
    simp [threaded, inverse]

end Threaded
