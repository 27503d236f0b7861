import Oqueue.Index.Fold

/-!
# Which objects the index still names

A count is what it was, plus the additions of the batch, less its drops. The
drops of an effect are references the partition really held, so a count never
falls below what is resident and no subtraction is ever cut short.
-/

namespace Oqueue

open Checked Tiling PartitionIndex IndexState

namespace References

def NoZero (self : References) : Prop := ∀ object, self.lookup object ≠ some 0

theorem NoZero.empty : NoZero ∅ := by
  intro object
  simp

theorem NoZero.lookup_eq {r : References} (h : r.NoZero) (object : ObjectKey) :
    r.lookup object = if r.get object = 0 then none else some (r.get object) := by
  unfold get
  cases held : r.lookup object with
  | none => rfl
  | some count =>
    have : count ≠ 0 := by
      rintro rfl
      exact h object held
    simp [this]

theorem NoZero.ext {r r' : References} (h : r.NoZero) (h' : r'.NoZero)
    (same : ∀ object, r.get object = r'.get object) : r = r' := by
  apply Finmap.ext_lookup
  intro object
  rw [h.lookup_eq, h'.lookup_eq, same]

theorem NoZero.change {r : References} (h : r.NoZero) (c : RefChange) : (r.change c).NoZero := by
  intro object
  cases c with
  | added key =>
    simp only [References.change, Table.lookup_insert_eq]
    split
    · simp
    · exact h object
  | dropped key =>
    simp only [References.change]
    split
    · exact h object
    · split
      · rw [Table.lookup_erase_eq]
        split
        · simp
        · exact h object
      · rename_i positive
        rw [Table.lookup_insert_eq]
        split
        · simpa using positive
        · exact h object

theorem NoZero.foldl_change {r : References} (h : r.NoZero) (changes : List RefChange) :
    (changes.foldl References.change r).NoZero := by
  induction changes generalizing r with
  | nil => exact h
  | cons c rest ih => exact ih (h.change c)

theorem NoZero.apply {r : References} (h : r.NoZero) (changes : List RefChange) :
    (r.apply changes).NoZero := h.foldl_change _

theorem get_change_added (r : References) (key object : ObjectKey) :
    (r.change (.added key)).get object = r.get object + if key = object then 1 else 0 := by
  simp only [change, get, Table.lookup_insert_eq]
  by_cases same : object = key
  · subst same
    simp
  · simp [same, Ne.symm same]

theorem get_change_dropped (r : References) (key object : ObjectKey) :
    (r.change (.dropped key)).get object = r.get object - if key = object then 1 else 0 := by
  simp only [change]
  cases held : r.lookup key with
  | none =>
    by_cases same : key = object
    · subst same
      simp [get, held]
    · simp [same]
  | some count =>
    by_cases same : key = object
    · subst same
      by_cases last : count - 1 = 0 <;> simp [last, get, held]
    · have other : object ≠ key := Ne.symm same
      dsimp only
      split <;> simp [get, other]

theorem get_foldl_added (adds : List RefChange) (all : ∀ c ∈ adds, c.isAdded = true)
    (r : References) (object : ObjectKey) :
    (adds.foldl change r).get object = r.get object + adds.count (.added object) := by
  induction adds generalizing r with
  | nil => simp
  | cons c rest ih =>
    rw [List.foldl_cons, ih (fun d hd => all d (List.mem_cons_of_mem _ hd))]
    cases c with
    | added key =>
      rw [get_change_added, List.count_cons]
      simp only [beq_iff_eq, RefChange.added.injEq]
      omega
    | dropped key => exact absurd (all _ (List.mem_cons_self ..)) (by simp [RefChange.isAdded])

theorem get_foldl_dropped (drops : List RefChange) (all : ∀ c ∈ drops, c.isAdded = false)
    (r : References) (object : ObjectKey) :
    (drops.foldl change r).get object = r.get object - drops.count (.dropped object) := by
  induction drops generalizing r with
  | nil => simp
  | cons c rest ih =>
    rw [List.foldl_cons, ih (fun d hd => all d (List.mem_cons_of_mem _ hd))]
    cases c with
    | dropped key =>
      rw [get_change_dropped, List.count_cons]
      simp only [beq_iff_eq, RefChange.dropped.injEq]
      omega
    | added key => exact absurd (all _ (List.mem_cons_self ..)) (by simp [RefChange.isAdded])

theorem get_apply (r : References) (changes : List RefChange) (object : ObjectKey) :
    (r.apply changes).get object =
      r.get object + changes.count (.added object) - changes.count (.dropped object) := by
  unfold apply
  rw [List.foldl_append, get_foldl_dropped _ (by simp), get_foldl_added _ (by simp),
    List.count_filter (by rfl), List.count_filter (by rfl)]

end References

/-- How many of a partition's entries name an object. -/
def PartitionIndex.naming (object : ObjectKey) (p : PartitionIndex) : Nat :=
  (p.refs.map ObjectRef.object).count object

theorem count_added_map (object : ObjectKey) (refs : List ObjectRef) :
    (refs.map fun r => RefChange.added r.object).count (.added object) =
      (refs.map ObjectRef.object).count object := by
  induction refs with
  | nil => rfl
  | cons r rest ih => simp [List.count_cons, ih]

theorem count_dropped_map (object : ObjectKey) (keys : List ObjectKey) :
    (keys.map RefChange.dropped).count (.dropped object) = keys.count object := by
  induction keys with
  | nil => rfl
  | cons r rest ih => simp [List.count_cons, ih]

theorem count_added_dropped (object : ObjectKey) (keys : List ObjectKey) :
    (keys.map RefChange.dropped).count (.added object) = 0 := by
  rw [List.count_eq_zero]
  simp

theorem count_dropped_added (object : ObjectKey) (refs : List ObjectRef) :
    (refs.map fun r => RefChange.added r.object).count (.dropped object) = 0 := by
  rw [List.count_eq_zero]
  simp

theorem naming_landSpan (object : ObjectKey) (slot : PartitionIndex) (span : StagedSpan) :
    (landSpan slot span).naming object = slot.naming object +
      ((span.entries.map TailEntry.reference).map ObjectRef.object).count object := by
  unfold naming
  rw [refs_landSpan, List.map_append, List.count_append]

theorem count_filter_objects (keep : ObjectRef → Bool) (object : ObjectKey)
    (l : List ObjectRef) :
    ((l.filter keep).map ObjectRef.object).count object +
      ((l.filter fun r => !keep r).map ObjectRef.object).count object =
    (l.map ObjectRef.object).count object := by
  induction l with
  | nil => rfl
  | cons r rest ih =>
    cases h : keep r <;> simp [h, List.count_cons] at ih ⊢ <;> omega

theorem naming_trim (object : ObjectKey) (slot : PartitionIndex) (start : Nat) :
    (slot.trim start).2.naming object + (slot.trim start).1.count object =
      slot.naming object := by
  unfold PartitionIndex.trim
  split
  · simp
  · simp only [naming, PartitionIndex.refs, List.map_append, List.count_append]
    have tail := count_filter_objects (dead start) object (slot.tail.map TailEntry.reference)
    have held := count_filter_objects (dead start) object slot.history
    rw [List.filter_map, List.filter_map] at tail
    simp only [Function.comp_def] at tail
    omega

/-- How many entries naming an object an effect hands over to a manifest. -/
def Effect.absorbs (slot : PartitionIndex) (object : ObjectKey) : Effect → Nat
  | .published _ upto =>
    ((slot.history.filter fun r => !endsAbove upto r).map ObjectRef.object).count object
  | _ => 0

/-- What an accepted effect drops was there, and what is no longer there was
dropped or went to a manifest. -/
theorem applyEffect_naming {slot slot' : PartitionIndex} (wf : slot.WF) {key : PartitionKey}
    {effect : Effect} {changes : List RefChange}
    (h : applyEffect slot key effect = .ok (slot', changes)) (object : ObjectKey) :
    slot'.naming object + changes.count (.dropped object) + effect.absorbs slot object =
      slot.naming object + changes.count (.added object) := by
  rcases applyEffect_cases.mp h with ⟨_, upto, rfl, -, rfl, rfl⟩ |
    ⟨retiring, installing, rfl, hcovers, hheld, rfl, rfl⟩ | ⟨_, rfl, -, rfl, rfl⟩
  · -- A manifest still names what it absorbs, so nothing is counted down.
    have parts := count_filter_objects (endsAbove upto) object slot.history
    simp only [List.count_nil, Nat.add_zero, naming, PartitionIndex.refs, PartitionIndex.absorb,
      List.map_append, List.count_append, Effect.absorbs]
    omega
  · obtain ⟨before, after, hold, hnew, -, -⟩ := wf.swap_block hcovers hheld
    have perm : ∀ l : List ObjectRef, ((sortByBase l).map ObjectRef.object).count object =
        (l.map ObjectRef.object).count object :=
      fun l => ((sortByBase_perm l).map _).count_eq _
    have tails : (slot.replaceHistory retiring installing).tail = slot.tail := rfl
    have drops : (retiring.map fun r => RefChange.dropped r.object).count (.dropped object) =
        (retiring.map ObjectRef.object).count object := by
      rw [← count_dropped_map, List.map_map]
      rfl
    have none : (retiring.map fun r => RefChange.dropped r.object).count (.added object) = 0 := by
      rw [← count_added_dropped object (retiring.map ObjectRef.object), List.map_map]
      rfl
    simp only [naming, PartitionIndex.refs, tails, hold, hnew, List.map_append, List.count_append,
      perm, drops, none, count_added_map, count_dropped_added, Effect.absorbs]
    omega
  · rw [count_dropped_map, count_added_dropped, naming_trim]
    rfl

end Oqueue
