import Mathlib

/-!
# Gathering items under their keys

A list is gathered from the left: an item whose key has been seen is joined into
the one held for it, another goes to the end. What is held for a key in the end is
the join of everything with that key, in the order it came.
-/

namespace Grouping

variable {α κ : Type*} [DecidableEq κ] (key : α → κ) (join : α → α → α)

def add (held : List α) (item : α) : List α :=
  if held.any fun h => decide (key h = key item) then
    held.map fun h => if key h = key item then join h item else h
  else held ++ [item]

def collect (items : List α) : List α := items.foldl (add key join) []

/-- What is held for a key, given the items that have it. -/
def joined : List α → Option α
  | [] => none
  | first :: rest => some (rest.foldl join first)

def under (items : List α) (k : κ) : List α := items.filter fun item => decide (key item = k)

variable {key join}

theorem joined_snoc (items : List α) (item : α) :
    joined join (items ++ [item]) = some ((joined join items).elim item fun h => join h item) := by
  cases items with
  | nil => rfl
  | cons first rest => simp [joined]

theorem under_snoc (items : List α) (item : α) (k : κ) :
    under key (items ++ [item]) k =
      under key items k ++ if key item = k then [item] else [] := by
  unfold under
  rw [List.filter_append]
  congr 1
  by_cases h : key item = k <;> simp [h]

theorem mem_under {items : List α} {item : α} {k : κ} :
    item ∈ under key items k ↔ item ∈ items ∧ key item = k := by
  simp [under]

theorem collect_snoc (items : List α) (item : α) :
    collect key join (items ++ [item]) = add key join (collect key join items) item := by
  unfold collect
  rw [List.foldl_append, List.foldl_cons, List.foldl_nil]

variable (key join) in
theorem add_cases (held : List α) (item : α) :
    (key item ∈ held.map key ∧ add key join held item =
        held.map fun h => if key h = key item then join h item else h) ∨
      key item ∉ held.map key ∧ add key join held item = held ++ [item] := by
  unfold add
  by_cases seen : ∃ h ∈ held, key h = key item
  · left
    refine ⟨List.mem_map.mpr seen, if_pos ?_⟩
    simpa using seen
  · right
    refine ⟨fun inside => seen (List.mem_map.mp inside), if_neg ?_⟩
    simpa using seen

theorem collect_of_nodup {items : List α} (nodup : (items.map key).Nodup) :
    collect key join items = items := by
  induction items using List.reverseRecOn with
  | nil => rfl
  | append_singleton items item ih =>
    rw [List.map_append, List.nodup_append] at nodup
    rw [collect_snoc, ih nodup.1]
    rcases add_cases key join items item with ⟨seen, -⟩ | ⟨-, h⟩
    · exact absurd rfl (nodup.2.2 _ seen _ (List.mem_singleton.mpr rfl))
    · exact h

variable (key join) in
theorem length_collect_le (items : List α) : (collect key join items).length ≤ items.length := by
  induction items using List.reverseRecOn with
  | nil => exact Nat.le_refl _
  | append_singleton items item ih =>
    rw [collect_snoc, List.length_append]
    rcases add_cases key join (collect key join items) item with ⟨-, h⟩ | ⟨-, h⟩
    · rw [h, List.length_map]
      exact Nat.le_add_right_of_le ih
    · rw [h, List.length_append]
      exact Nat.add_le_add_right ih _

variable (joins : ∀ a b, key (join a b) = key a)
include joins

omit [DecidableEq κ] in
theorem key_joined {items : List α} {k : κ} (same : ∀ item ∈ items, key item = k) {g : α}
    (h : joined join items = some g) : key g = k := by
  cases items with
  | nil => cases h
  | cons first rest =>
    cases h
    refine List.foldlRecOn (motive := fun held => key held = k) rest join
      (same first (List.mem_cons_self ..)) ?_
    intro held kept item _
    exact (joins held item).trans kept

/-- What is held is one item for each key there is: the join of all with that key. -/
theorem mem_collect (items : List α) (g : α) :
    g ∈ collect key join items ↔ joined join (under key items (key g)) = some g := by
  induction items using List.reverseRecOn generalizing g with
  | nil => simp [collect, under, joined]
  | append_singleton items item ih =>
    rw [collect_snoc, under_snoc]
    rcases add_cases key join (collect key join items) item with ⟨seen, h⟩ | ⟨fresh, h⟩
    · obtain ⟨held, hheld, same⟩ := List.mem_map.mp seen
      rw [h, List.mem_map]
      by_cases mine : key item = key g
      · rw [if_pos mine, joined_snoc, ← mine, ← same, (ih held).mp hheld, Option.elim_some,
          Option.some_inj]
        constructor
        · rintro ⟨other, hother, rfl⟩
          split
          · rename_i keyed
            have one := (ih other).mp hother
            rw [keyed, (ih held).mp hheld] at one
            rw [Option.some.inj one]
          · rename_i other
            rw [if_neg other] at mine
            exact absurd (mine.symm.trans same.symm) other
        · rintro rfl
          exact ⟨held, hheld, if_pos rfl⟩
      · rw [if_neg mine, List.append_nil, ← ih]
        constructor
        · rintro ⟨other, hother, rfl⟩
          split
          · rename_i keyed
            rw [if_pos keyed, joins, keyed] at mine
            exact absurd rfl mine
          · exact hother
        · intro hg
          exact ⟨g, hg, if_neg fun same => mine same.symm⟩
    · have alone : under key items (key item) = [] := by
        rw [List.eq_nil_iff_forall_not_mem]
        intro first hfirst
        cases hunder : under key items (key item) with
        | nil =>
          rw [hunder] at hfirst
          cases hfirst
        | cons a rest =>
          have keyed : key (rest.foldl join a) = key item :=
            key_joined joins (fun x hx => (mem_under.mp (hunder ▸ hx)).2)
              (show joined join (a :: rest) = some _ from rfl)
          apply fresh
          rw [← keyed]
          refine List.mem_map_of_mem ((ih _).mpr ?_)
          rw [keyed, hunder]
          rfl
      rw [h, List.mem_append, List.mem_singleton, ih]
      by_cases mine : key item = key g
      · rw [if_pos mine, ← mine, alone, List.nil_append]
        exact ⟨fun h => h.elim (fun h => by cases h) fun h => h ▸ rfl, fun h => .inr (by cases h; rfl)⟩
      · rw [if_neg mine, List.append_nil]
        exact ⟨fun h => h.elim id fun h => absurd (congrArg key h).symm mine, .inl⟩

theorem map_key_add (held : List α) (item : α) :
    (add key join held item).map key =
      if key item ∈ held.map key then held.map key else held.map key ++ [key item] := by
  rcases add_cases key join held item with ⟨seen, h⟩ | ⟨fresh, h⟩
  · rw [h, if_pos seen, List.map_map]
    refine List.map_congr_left fun g _ => ?_
    simp only [Function.comp_apply]
    split
    · exact joins _ _
    · rfl
  · rw [h, if_neg fresh, List.map_append]
    rfl

theorem nodup_collect (items : List α) : ((collect key join items).map key).Nodup := by
  induction items using List.reverseRecOn with
  | nil => exact List.nodup_nil
  | append_singleton items item ih =>
    rw [collect_snoc, map_key_add joins]
    split
    · exact ih
    · rename_i fresh
      refine List.nodup_append.mpr ⟨ih, List.nodup_singleton _, ?_⟩
      rintro a ha b hb rfl
      exact fresh (List.mem_singleton.mp hb ▸ ha)

theorem mem_keys_collect (items : List α) (k : κ) :
    k ∈ (collect key join items).map key ↔ k ∈ items.map key := by
  induction items using List.reverseRecOn with
  | nil => rfl
  | append_singleton items item ih =>
    rw [collect_snoc, map_key_add joins, List.map_append,
      List.mem_append, ← ih]
    split
    · rename_i seen
      refine ⟨.inl, ?_⟩
      rintro (h | h)
      · exact h
      · exact List.mem_singleton.mp h ▸ seen
    · exact List.mem_append

theorem nodup_of_length {items : List α} (same : (collect key join items).length = items.length) :
    (items.map key).Nodup := by
  induction items using List.reverseRecOn with
  | nil => exact List.nodup_nil
  | append_singleton items item ih =>
    have short := length_collect_le key join items
    have keys := mem_keys_collect joins items (key item)
    rw [collect_snoc, List.length_append] at same
    rcases add_cases key join (collect key join items) item with
      ⟨-, h⟩ | ⟨fresh, h⟩
    · rw [h, List.length_map, List.length_singleton] at same
      omega
    · rw [h, List.length_append] at same
      rw [List.map_append]
      refine List.nodup_append.mpr ⟨ih (Nat.add_right_cancel same), List.nodup_singleton _, ?_⟩
      rintro a ha b hb rfl
      exact fresh (keys.mpr (List.mem_singleton.mp hb ▸ ha))

omit joins in
theorem add_cons_of_ne {h : α} {t : List α} {item : α} (other : key h ≠ key item) :
    add key join (h :: t) item = h :: add key join t item := by
  unfold add
  by_cases seen : (t.any fun x => decide (key x = key item)) = true
  · rw [if_pos (by simp [seen]), if_pos seen, List.map_cons, if_neg other]
  · rw [if_neg (by simpa [other] using seen), if_neg seen]
    rfl

omit joins in
theorem add_cons_of_eq {h : α} {t : List α} {item : α} (same : key h = key item)
    (alone : key item ∉ t.map key) : add key join (h :: t) item = join h item :: t := by
  unfold add
  rw [if_pos (by simp [same]), List.map_cons, if_pos same]
  congr 1
  refine (List.map_congr_left fun x hx => ?_).trans (List.map_id t)
  exact if_neg fun (eq : key x = key item) => alone (eq ▸ List.mem_map_of_mem hx)

theorem foldl_add_cons (items : List α) {g : α} {held : List α} (alone : key g ∉ held.map key) :
    items.foldl (add key join) (g :: held) = (under key items (key g)).foldl join g ::
      (items.filter fun x => decide (key x ≠ key g)).foldl (add key join) held := by
  induction items generalizing g held with
  | nil => rfl
  | cons item rest ih =>
    rw [List.foldl_cons]
    by_cases same : key g = key item
    · have still : key (join g item) ∉ held.map key := by rwa [joins]
      rw [add_cons_of_eq same (same ▸ alone), ih still, joins]
      unfold under
      rw [List.filter_cons_of_pos (by simpa using same.symm),
        List.filter_cons_of_neg (by simpa using same.symm), List.foldl_cons]
    · have still : key g ∉ (add key join held item).map key := by
        rw [map_key_add joins]
        split
        · exact alone
        · intro inside
          rcases List.mem_append.mp inside with inside | inside
          · exact alone inside
          · exact same (List.mem_singleton.mp inside)
      rw [add_cons_of_ne same, ih still]
      unfold under
      rw [List.filter_cons_of_neg (by simpa using fun eq => same (Eq.symm eq)),
        List.filter_cons_of_pos (by simpa using fun eq => same (Eq.symm eq)), List.foldl_cons]

/-- What is gathered first holds everything under its key; the rest is gathered of
what has another. -/
theorem collect_cons (item : α) (rest : List α) :
    collect key join (item :: rest) = (under key rest (key item)).foldl join item ::
      collect key join (rest.filter fun x => decide (key x ≠ key item)) := by
  unfold collect
  exact foldl_add_cons joins rest (List.not_mem_nil)

end Grouping
