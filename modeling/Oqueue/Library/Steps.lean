import Mathlib

/-!
# Runs of a guarded step

A system is a step that a disabled action refuses. A run is a list of actions,
each enabled where it is taken.
-/

universe u v
variable {σ : Type u} {ι : Type v}

namespace Steps

def run (step : σ → ι → Option σ) : σ → List ι → Option σ
  | s, [] => some s
  | s, action :: rest => (step s action).bind fun mid => run step mid rest

theorem run_cons {step : σ → ι → Option σ} {s t : σ} {action : ι} {rest : List ι} :
    run step s (action :: rest) = some t ↔
      ∃ mid, step s action = some mid ∧ run step mid rest = some t := by
  simp [run, Option.bind_eq_some_iff]

theorem run_append (step : σ → ι → Option σ) (s : σ) (before after : List ι) :
    run step s (before ++ after) = (run step s before).bind fun mid => run step mid after := by
  induction before generalizing s with
  | nil => rfl
  | cons action before ih =>
    simp only [List.cons_append, run, Option.bind_assoc, ih]

theorem run_invariant {step : σ → ι → Option σ} (P : σ → Prop)
    (keeps : ∀ s action t, P s → step s action = some t → P t) {s t : σ} {actions : List ι}
    (hs : P s) (h : run step s actions = some t) : P t := by
  induction actions generalizing s with
  | nil =>
    cases h
    exact hs
  | cons action rest ih =>
    obtain ⟨mid, hmid, hrest⟩ := run_cons.mp h
    exact ih (keeps s action mid hs hmid) hrest

theorem run_passes {step : σ → ι → Option σ} (measure : σ → Nat)
    (slow : ∀ s action t, step s action = some t → measure t ≤ measure s + 1) {s t : σ}
    {actions : List ι} (h : run step s actions = some t) {k : Nat} (low : measure s ≤ k)
    (high : k ≤ measure t) : ∃ before after mid, actions = before ++ after ∧
      run step s before = some mid ∧ run step mid after = some t ∧ measure mid = k := by
  induction actions generalizing s with
  | nil =>
    cases h
    exact ⟨[], [], t, rfl, rfl, rfl, Nat.le_antisymm low high⟩
  | cons action rest ih =>
    by_cases here : measure s = k
    · exact ⟨[], action :: rest, s, rfl, rfl, h, here⟩
    · obtain ⟨next, stepped, ran⟩ := run_cons.mp h
      have := slow s action next stepped
      obtain ⟨before, after, mid, rfl, ran_before, ran_after, at_⟩ := ih ran (by omega)
      exact ⟨action :: before, after, mid, rfl, run_cons.mpr ⟨next, stepped, ran_before⟩,
        ran_after, at_⟩

theorem run_history {step : σ → ι → Option σ} {s : σ} (P : List ι → σ → Prop) (start : P [] s)
    (keeps : ∀ before mid action next, run step s before = some mid → P before mid →
      step mid action = some next → P (before ++ [action]) next) {actions : List ι} {t : σ}
    (h : run step s actions = some t) : P actions t := by
  induction actions using List.reverseRecOn generalizing t with
  | nil =>
    cases h
    exact start
  | append_singleton before action ih =>
    rw [run_append, Option.bind_eq_some_iff] at h
    obtain ⟨mid, ran, last⟩ := h
    obtain ⟨next, stepped, ended⟩ := run_cons.mp last
    cases ended
    exact keeps before mid action t ran (ih ran) stepped

theorem run_turns {step : σ → ι → Option σ} {P : σ → Prop} {s t : σ} {actions : List ι}
    (h : run step s actions = some t) (first : ¬ P s) (last : P t) :
    ∃ before action after mid next, actions = before ++ action :: after ∧
      run step s before = some mid ∧ step mid action = some next ∧
      run step next after = some t ∧ ¬ P mid ∧ P next := by
  induction actions generalizing s with
  | nil =>
    cases h
    exact absurd last first
  | cons action rest ih =>
    obtain ⟨next, stepped, ran⟩ := run_cons.mp h
    by_cases here : P next
    · exact ⟨[], action, rest, s, next, rfl, rfl, stepped, ran, first, here⟩
    · obtain ⟨before, later, after, mid, next', rfl, ran_before, rest⟩ := ih ran here
      exact ⟨action :: before, later, after, mid, next', rfl,
        run_cons.mpr ⟨next, stepped, ran_before⟩, rest⟩

end Steps
