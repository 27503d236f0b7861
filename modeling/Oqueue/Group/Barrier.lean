import Mathlib.Data.Finmap
import Oqueue.Group.State

/-!
# The barrier a generation's assignment is published on

One cell a group: the newest generation anything was said about, and its assignment
unless it was refused. Only `submit` and `refuse` write it, each under the cell's lock.
-/

namespace Oqueue

abbrev AssignmentMap := Finmap fun _ : String => List UInt8

structure GroupAssignment where
  generation : Int
  map : Option AssignmentMap
  deriving DecidableEq

inductive Known where
  | mine (map : AssignmentMap)
  | superseded
  | refused
  | waiting
  deriving DecidableEq

def assignmentFor (cell : Option GroupAssignment) (generation : Int) : Known :=
  match cell with
  | none => .waiting
  | some held =>
    if held.generation = generation then
      match held.map with
      | none => .refused
      | some map => .mine map
    else if generation < held.generation then .superseded
    else .waiting

namespace SyncGroups

/-- The cell after a submission, and the map to answer with unless it was turned away. -/
def submit (cell : Option GroupAssignment) (generation : Int) (map : AssignmentMap)
    (stillAtThisGeneration : Bool) : Option GroupAssignment × Option AssignmentMap :=
  let superseded := cell.any fun held => decide (generation < held.generation)
  if superseded || !stillAtThisGeneration then (cell, none)
  else (some ⟨generation, some map⟩, some map)

/-- The cell after a refusal, and whether it was written. -/
def refuse (cell : Option GroupAssignment) (generation : Int) : Option GroupAssignment × Bool :=
  let holdsAnAssignment := cell.any fun held =>
    decide (generation < held.generation) || (held.generation == generation && held.map.isSome)
  if holdsAnAssignment then (cell, false)
  else (some ⟨generation, none⟩, true)

end SyncGroups

variable {cell : Option GroupAssignment} {generation : Int}

theorem assignmentFor_ne_waiting :
    assignmentFor cell generation ≠ .waiting ↔ ∃ held, cell = some held ∧
      generation ≤ held.generation := by
  unfold assignmentFor
  rcases cell with - | ⟨at_, held⟩
  · simp
  · by_cases same : at_ = generation
    · cases held <;> simp [same]
    · by_cases later : generation < at_
      · simp [same, later, later.le]
      · simp only [same, later, if_false, ne_eq, not_true_eq_false, Option.some.injEq, false_iff]
        intro ⟨held', is_, le⟩
        subst is_
        exact later (lt_of_le_of_ne le (Ne.symm same))

theorem assignmentFor_eq_mine {map : AssignmentMap} :
    assignmentFor cell generation = .mine map ↔ cell = some ⟨generation, some map⟩ := by
  unfold assignmentFor
  rcases cell with - | ⟨at_, held⟩
  · simp
  · by_cases same : at_ = generation
    · cases held <;> simp [same]
    · by_cases later : generation < at_ <;> simp [same, later]

namespace SyncGroups

theorem submit_cases (cell : Option GroupAssignment) (generation : Int) (map : AssignmentMap)
    (still : Bool) :
    submit cell generation map still = (cell, none) ∨
      still = true ∧ (∀ held, cell = some held → held.generation ≤ generation) ∧
        submit cell generation map still = (some ⟨generation, some map⟩, some map) := by
  unfold submit
  cases still with
  | false => simp
  | true =>
    cases cell with
    | none => simp
    | some held =>
      by_cases later : generation < held.generation
      · simp [later]
      · right
        simp [later]
        omega

theorem refuse_cases (cell : Option GroupAssignment) (generation : Int) :
    (refuse cell generation = (cell, false) ∧ ∃ held, cell = some held ∧
      generation ≤ held.generation) ∨
      refuse cell generation = (some ⟨generation, none⟩, true) ∧ ∀ held, cell = some held →
        held.generation < generation ∨ (held.generation = generation ∧ held.map = none) := by
  unfold refuse
  cases cell with
  | none => simp
  | some held =>
    rcases lt_trichotomy generation held.generation with later | rfl | earlier
    · simp [later, later.le]
    · cases h : held.map <;> simp [h]
    · right
      have not_later : ¬ generation < held.generation := by omega
      have other : held.generation ≠ generation := by omega
      simp [not_later, other, earlier]

end SyncGroups

end Oqueue
