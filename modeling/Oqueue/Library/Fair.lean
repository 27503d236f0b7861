import Oqueue.Library.Steps

/-!
# Unending runs

At each time an action is taken or nothing happens. Fairness is for a group of
actions: from some time on always ready, one of them is taken. What the others
keep is then still there when it is.
-/

universe u v
variable {σ : Type u} {ι : Type v}

/-- An unending run of a guarded step. -/
structure Behaviour (step : σ → ι → Option σ) where
  state : Nat → σ
  action : Nat → Option ι
  moves : ∀ n, (action n).elim (some (state n)) (step (state n)) = some (state (n + 1))

namespace Behaviour

variable {step : σ → ι → Option σ} (b : Behaviour step)

/-- Actions that are ready from some time on are taken. -/
def Fair (ready : σ → Prop) (group : ι → Prop) : Prop :=
  ∀ n, (∀ m, n ≤ m → ready (b.state m)) → ∃ m a, n ≤ m ∧ b.action m = some a ∧ group a

theorem reaches (n : Nat) : ∃ actions, Steps.run step (b.state 0) actions = some (b.state n) := by
  induction n with
  | zero => exact ⟨[], rfl⟩
  | succ n ih =>
    obtain ⟨actions, ran⟩ := ih
    have moved := b.moves n
    cases taken : b.action n with
    | none =>
      rw [taken, Option.elim_none] at moved
      exact ⟨actions, ran.trans moved⟩
    | some action =>
      rw [taken, Option.elim_some] at moved
      refine ⟨actions ++ [action], ?_⟩
      rw [Steps.run_append, ran, Option.bind_some, Steps.run_cons]
      exact ⟨_, moved, rfl⟩

variable {b}

theorem lasts {P : σ → Prop} (keeps : ∀ s action t, P s → step s action = some t → P t) {n m : Nat}
    (le : n ≤ m) (holds : P (b.state n)) : P (b.state m) := by
  induction le with
  | refl => exact holds
  | step _ ih =>
    rename_i k _
    have moved := b.moves k
    cases taken : b.action k with
    | none =>
      rw [taken, Option.elim_none] at moved
      rw [← Option.some.inj moved]
      exact ih
    | some action =>
      rw [taken, Option.elim_some] at moved
      exact keeps _ action _ ih moved

/-- What every step keeps or makes into what is wanted leads there, once an action of a fair
group makes it so. -/
theorem Fair.leads {ready P Q : σ → Prop} {group : ι → Prop} (fair : b.Fair ready group)
    (able : ∀ s, P s → ready s)
    (keeps : ∀ s action t, P s → step s action = some t → P t ∨ Q t)
    (makes : ∀ s action t, P s → group action → step s action = some t → Q t) {n : Nat}
    (holds : P (b.state n)) : ∃ m, n ≤ m ∧ Q (b.state m) := by
  by_contra never
  have never (m : Nat) (le : n ≤ m) : ¬ Q (b.state m) := fun q => never ⟨m, le, q⟩
  have always (m : Nat) (le : n ≤ m) : P (b.state m) := by
    induction le with
    | refl => exact holds
    | step le ih =>
      rename_i k
      have moved := b.moves k
      cases taken : b.action k with
      | none =>
        rw [taken, Option.elim_none] at moved
        rw [← Option.some.inj moved]
        exact ih
      | some action =>
        rw [taken, Option.elim_some] at moved
        exact (keeps _ action _ ih moved).resolve_right (never _ (Nat.le_succ_of_le le))
  obtain ⟨m, action, le, taken, member⟩ := fair n fun m le => able _ (always m le)
  have moved := b.moves m
  rw [taken, Option.elim_some] at moved
  exact never (m + 1) (Nat.le_succ_of_le le) (makes _ action _ (always m le) member moved)

theorem run_take {s t : σ} {actions : List ι} (ran : Steps.run step s actions = some t) (n : Nat) :
    ∃ mid, Steps.run step s (actions.take n) = some mid ∧
      Steps.run step mid (actions.drop n) = some t := by
  rw [← List.take_append_drop n actions, Steps.run_append, Option.bind_eq_some_iff] at ran
  exact ran

def ofRun {s t : σ} {actions : List ι} (ran : Steps.run step s actions = some t) :
    Behaviour step where
  state n := (Steps.run step s (actions.take n)).getD s
  action n := actions[n]?
  moves := by
    intro n
    obtain ⟨mid, before, later⟩ := run_take ran n
    rw [before, Option.getD_some]
    rcases Nat.lt_or_ge n actions.length with within | past
    · rw [List.getElem?_eq_getElem within, Option.elim_some]
      rw [List.drop_eq_getElem_cons within] at later
      obtain ⟨next, stepped, -⟩ := Steps.run_cons.mp later
      have whole : Steps.run step s (actions.take (n + 1)) = some next := by
        rw [List.take_succ_eq_append_getElem within, Steps.run_append, before, Option.bind_some]
        exact Steps.run_cons.mpr ⟨next, stepped, rfl⟩
      rw [whole]
      exact stepped
    · rw [List.getElem?_eq_none past, Option.elim_none]
      rw [List.take_of_length_le past] at before
      rw [List.take_of_length_le (Nat.le_succ_of_le past), before]
      rfl

theorem ofRun_state {s t : σ} {actions : List ι} (ran : Steps.run step s actions = some t) {n : Nat}
    (past : actions.length ≤ n) : (ofRun ran).state n = t := by
  change (Steps.run step s (actions.take n)).getD s = t
  rw [List.take_of_length_le past, ran]
  rfl

theorem ofRun_fair {s t : σ} {actions : List ι} (ran : Steps.run step s actions = some t)
    {ready : σ → Prop} (quiet : ¬ ready t) (group : ι → Prop) : (ofRun ran).Fair ready group := by
  intro n always
  have last := always (max n actions.length) (Nat.le_max_left ..)
  rw [ofRun_state ran (Nat.le_max_right ..)] at last
  exact absurd last quiet

end Behaviour
