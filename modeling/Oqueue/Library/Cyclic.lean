import Mathlib

/-!
# Going round an ordered set in pages

What follows a cursor comes first, and the rest after it: a rotation of the set's
order. A page is the first so many of them, and the next cursor is its last.
-/

universe u v

namespace Cyclic

variable {α : Type u} {β : Type v} [LinearOrder β] (key : α → β)

/-- Everything in the set, from just after the cursor and round to it. -/
def following (xs : List α) : Option α → List α
  | none => xs
  | some cursor =>
    (xs.filter fun x => key cursor < key x) ++ xs.filter fun x => ¬ key cursor < key x

/-- The cursor after so many pages of a kind. -/
def cursorAfter (page : Option α → List α) : Nat → Option α → Option α
  | 0, cursor => cursor
  | rounds + 1, cursor => cursorAfter page rounds (page cursor).getLast?

section
variable {key} {xs : List α}

theorem following_some (cursor : α) : following key xs (some cursor) =
    (xs.filter fun x => key cursor < key x) ++ xs.filter fun x => ¬ key cursor < key x := rfl

theorem split_at (sorted : xs.Pairwise fun x y => key x < key y) (cursor : α) :
    ∃ k, (xs.filter fun x => key cursor < key x) = xs.drop k ∧
      (xs.filter fun x => ¬ key cursor < key x) = xs.take k := by
  induction xs with
  | nil => exact ⟨0, rfl, rfl⟩
  | cons x xs ih =>
    obtain ⟨before, sorted⟩ := List.pairwise_cons.mp sorted
    by_cases past : key cursor < key x
    · have all : ∀ y ∈ x :: xs, key cursor < key y := by
        intro y member
        rcases List.mem_cons.mp member with rfl | member
        · exact past
        · exact past.trans (before y member)
      refine ⟨0, ?_, ?_⟩
      · exact List.filter_eq_self.mpr fun y member => decide_eq_true (all y member)
      · refine List.filter_eq_nil_iff.mpr fun y member => ?_
        simpa using all y member
    · obtain ⟨k, after, upto⟩ := ih sorted
      refine ⟨k + 1, ?_, ?_⟩
      · rw [List.filter_cons_of_neg (by simpa using past), after, List.drop_succ_cons]
      · rw [List.filter_cons_of_pos (by simpa using past), upto, List.take_succ_cons]

theorem following_rotate (sorted : xs.Pairwise fun x y => key x < key y) (cursor : Option α) :
    ∃ k, following key xs cursor = xs.rotate k := by
  cases cursor with
  | none => exact ⟨0, (List.rotate_zero xs).symm⟩
  | some cursor =>
    obtain ⟨k, after, upto⟩ := split_at sorted cursor
    rw [following_some, after, upto]
    by_cases inside : k ≤ xs.length
    · exact ⟨k, (List.rotate_eq_drop_append_take inside).symm⟩
    · refine ⟨0, ?_⟩
      have long := (Nat.not_le.mp inside).le
      rw [List.drop_of_length_le long, List.take_of_length_le long, List.rotate_zero,
        List.nil_append]

theorem following_perm (sorted : xs.Pairwise fun x y => key x < key y) (cursor : Option α) :
    (following key xs cursor).Perm xs := by
  obtain ⟨k, turned⟩ := following_rotate sorted cursor
  rw [turned]
  exact List.rotate_perm xs k

/-- From one of the set's own, what follows starts with its successor. -/
theorem following_getElem (sorted : xs.Pairwise fun x y => key x < key y) {i : Nat}
    (inside : i < xs.length) : following key xs (some xs[i]) = xs.rotate (i + 1) := by
  have below : ∀ x ∈ xs.take (i + 1), ¬ key xs[i] < key x := by
    intro x member
    obtain ⟨j, short, rfl⟩ := List.mem_take_iff_getElem.mp member
    rcases Nat.lt_or_ge j i with less | eq
    · exact (List.pairwise_iff_getElem.mp sorted j i (by omega) inside less).asymm
    · have same : j = i := by omega
      subst same
      exact lt_irrefl _
  have above : ∀ x ∈ xs.drop (i + 1), key xs[i] < key x := by
    intro x member
    obtain ⟨j, short, rfl⟩ := List.mem_drop_iff_getElem.mp member
    exact List.pairwise_iff_getElem.mp sorted i _ inside (by omega) (by omega)
  have after : (xs.filter fun x => key xs[i] < key x) = xs.drop (i + 1) := by
    calc (xs.filter fun x => key xs[i] < key x)
        = (xs.take (i + 1) ++ xs.drop (i + 1)).filter fun x => key xs[i] < key x := by
          rw [List.take_append_drop]
      _ = xs.drop (i + 1) := by
          rw [List.filter_append, List.filter_eq_nil_iff.mpr (by simpa using below),
            List.filter_eq_self.mpr (by simpa using above), List.nil_append]
  have upto : (xs.filter fun x => ¬ key xs[i] < key x) = xs.take (i + 1) := by
    calc (xs.filter fun x => ¬ key xs[i] < key x)
        = (xs.take (i + 1) ++ xs.drop (i + 1)).filter fun x => ¬ key xs[i] < key x := by
          rw [List.take_append_drop]
      _ = xs.take (i + 1) := by
          rw [List.filter_append, List.filter_eq_self.mpr (by simpa using below),
            List.filter_eq_nil_iff.mpr (by simpa using above), List.append_nil]
  rw [following_some, after, upto, List.rotate_eq_drop_append_take inside]

theorem following_next (sorted : xs.Pairwise fun x y => key x < key y) {limit : Nat}
    (some_ : 0 < limit) (fits : limit ≤ xs.length) (cursor : Option α) :
    following key xs ((following key xs cursor).take limit).getLast? =
      (following key xs cursor).rotate limit := by
  obtain ⟨k, turned⟩ := following_rotate sorted cursor
  have inside : limit - 1 < (xs.rotate k).length := by
    rw [List.length_rotate]
    omega
  have wrapped : (limit - 1 + k) % xs.length < xs.length := Nat.mod_lt _ (by omega)
  have last : ((xs.rotate k).take limit).getLast? = some xs[(limit - 1 + k) % xs.length] := by
    rw [List.getLast?_take, if_neg (by omega), List.getElem?_eq_getElem inside,
      List.getElem_rotate, Option.some_or]
  rw [turned, last, following_getElem sorted, List.rotate_rotate,
    ← List.rotate_mod xs (_ % _ + 1), Nat.mod_add_mod, List.rotate_mod]
  congr 1
  omega

theorem following_after (sorted : xs.Pairwise fun x y => key x < key y) {limit : Nat}
    (some_ : 0 < limit) (fits : limit ≤ xs.length) (rounds : Nat) (cursor : Option α) :
    following key xs (cursorAfter (fun cursor => (following key xs cursor).take limit) rounds
      cursor) = (following key xs cursor).rotate (rounds * limit) := by
  induction rounds generalizing cursor with
  | zero => rw [Nat.zero_mul, List.rotate_zero, cursorAfter]
  | succ rounds ih =>
    rw [cursorAfter, ih, following_next sorted some_ fits, List.rotate_rotate, Nat.succ_mul,
      Nat.add_comm]

/-- Every member is on one of the pages that it takes to go round once. -/
theorem exists_mem_page (sorted : xs.Pairwise fun x y => key x < key y) {limit : Nat}
    (some_ : 0 < limit) (fits : limit ≤ xs.length) (cursor : Option α) {x : α} (member : x ∈ xs) :
    ∃ rounds, rounds * limit < xs.length ∧ x ∈ (following key xs
      (cursorAfter (fun cursor => (following key xs cursor).take limit) rounds cursor)).take
        limit := by
  have among := (following_perm sorted cursor).mem_iff.mpr member
  obtain ⟨i, inside, rfl⟩ := List.mem_iff_getElem.mp among
  have long := (following_perm sorted cursor).length_eq
  have page : i / limit * limit ≤ i := Nat.div_mul_le_self i limit
  have place : i - i / limit * limit < limit := by
    have := Nat.mod_lt i some_
    have := Nat.div_add_mod' i limit
    omega
  refine ⟨i / limit, by omega, ?_⟩
  rw [following_after sorted some_ fits, List.rotate_eq_drop_append_take (by omega)]
  apply List.mem_take_iff_getElem.mpr
  refine ⟨i - i / limit * limit, ?_, ?_⟩
  · rw [List.length_append, List.length_drop]
    omega
  · rw [List.getElem_append_left (by rw [List.length_drop]; omega), List.getElem_drop]
    congr 1
    omega

end

end Cyclic
