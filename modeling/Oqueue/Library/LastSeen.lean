import Mathlib

/-!
# Distinct by last occurrence

A history without its repeats keeps the last of each. Its end is what was seen
most recently, and one more sighting moves its subject to the very end.
-/

universe u

namespace List

variable {α : Type u} [DecidableEq α]

theorem dedup_concat (history : List α) (x : α) :
    (history ++ [x]).dedup = history.dedup.erase x ++ [x] := by
  induction history with
  | nil => rfl
  | cons y history ih =>
    rw [cons_append]
    by_cases later : y ∈ history
    · rw [dedup_cons_of_mem (mem_append_left _ later), dedup_cons_of_mem later, ih]
    · by_cases same : y = x
      · subst same
        rw [dedup_cons_of_mem (mem_append_right _ (mem_singleton_self y)),
          dedup_cons_of_notMem later, ih, erase_cons_head,
          erase_of_not_mem fun among => later (mem_dedup.mp among)]
      · have fresh : y ∉ history ++ [x] := by
          rw [mem_append, mem_singleton, not_or]
          exact ⟨later, same⟩
        rw [dedup_cons_of_notMem fresh, dedup_cons_of_notMem later, ih,
          erase_cons_tail (by simpa using same), cons_append]

theorem IsSuffix.dedup_concat {history recent : List α} (suffix : recent <:+ history.dedup)
    (x : α) : recent.erase x ++ [x] <:+ (history ++ [x]).dedup := by
  rw [List.dedup_concat]
  obtain ⟨older, whole⟩ := suffix
  have distinct := nodup_dedup history
  rw [← whole] at distinct ⊢
  by_cases among : x ∈ older
  · have elsewhere : x ∉ recent := fun also =>
      (nodup_append.mp distinct).2.2 x among x also rfl
    rw [erase_append_left _ among, erase_of_not_mem elsewhere, append_assoc]
    exact suffix_append ..
  · rw [erase_append_right _ among, append_assoc]
    exact suffix_append ..

theorem IsSuffix.full_concat {history recent : List α} (suffix : recent <:+ history.dedup)
    {cap : Nat} (full : min cap history.dedup.length ≤ recent.length) (x : α) :
    min cap (history ++ [x]).dedup.length ≤ (recent.erase x ++ [x]).length := by
  rw [List.dedup_concat, length_append, length_append, length_erase, length_erase,
    length_singleton]
  by_cases seen : x ∈ history.dedup
  · have some_ := length_pos_of_mem seen
    rw [if_pos seen]
    split
    · rename_i held
      have also := length_pos_of_mem held
      omega
    · omega
  · have unheld : x ∉ recent := fun held => seen (suffix.subset held)
    rw [if_neg seen, if_neg unheld]
    omega

omit [DecidableEq α] in
theorem IsSuffix.eq_drop {recent whole : List α} (suffix : recent <:+ whole) {cap : Nat}
    (few : recent.length ≤ cap) (full : min cap whole.length ≤ recent.length) :
    recent = whole.drop (whole.length - cap) := by
  obtain ⟨older, rfl⟩ := suffix
  rw [length_append] at full ⊢
  have start : older.length + recent.length - cap = older.length := by omega
  rw [start, drop_left]

omit [DecidableEq α] in
theorem filter_eq_passed_append {passed : α → Bool} {items : List α}
    (ordered : items.Pairwise fun first _ => passed first = true) :
    items = items.filter passed ++ items.filter (fun item => !passed item) ∧
      (items.filter fun item => !passed item).length ≤ 1 := by
  induction items with
  | nil => exact ⟨rfl, Nat.zero_le _⟩
  | cons item rest ih =>
    obtain ⟨goes, ordered⟩ := pairwise_cons.mp ordered
    obtain ⟨split, few⟩ := ih ordered
    cases held : passed item with
    | true =>
      rw [filter_cons_of_pos held, filter_cons_of_neg (by simp [held]), cons_append]
      exact ⟨congrArg _ split, few⟩
    | false =>
      cases rest with
      | nil => simp [held]
      | cons next rest => exact absurd (goes next mem_cons_self) (by simp [held])

end List
