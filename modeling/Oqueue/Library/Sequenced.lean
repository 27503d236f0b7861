import Mathlib.Data.List.Basic

/-!
# Results given out in order

Items come to their results in any order. What is given out is the results of the items up to
the first that has none yet; so it only ever grows at its end.
-/

namespace Sequenced

variable {α β : Type*}

def emitted (result : α → Option (List β)) : List α → List β
  | [] => []
  | item :: rest => match result item with
    | some out => out ++ emitted result rest
    | none => []

variable {result : α → Option (List β)}

theorem emitted_append {front : List α} (known : ∀ item ∈ front, (result item).isSome)
    (back : List α) :
    emitted result (front ++ back) = emitted result front ++ emitted result back := by
  induction front with
  | nil => rfl
  | cons item front ih =>
    obtain ⟨out, is⟩ := Option.isSome_iff_exists.mp (known item List.mem_cons_self)
    have rest := ih fun other among => known other (List.mem_cons_of_mem _ among)
    simp only [List.cons_append, emitted, is, rest, List.append_assoc]

theorem emitted_of_none (result : α → Option (List β)) {item : α} (unknown : result item = none)
    (rest : List α) : emitted result (item :: rest) = [] := by
  simp only [emitted, unknown]

theorem emitted_take_prefix {items : List α} {count : Nat}
    (known : ∀ item ∈ items.take count, (result item).isSome) :
    emitted result (items.take count) <+: emitted result items := by
  have split := emitted_append known (items.drop count)
  rw [List.take_append_drop] at split
  rw [split]
  exact List.prefix_append _ _

end Sequenced
