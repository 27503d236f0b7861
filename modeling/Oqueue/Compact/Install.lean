import Oqueue.Compact.Layout
import Oqueue.Index.Single

/-!
# Installing what a plan was merged into

The swap that retires a plan's inputs names whole references of history, and the
inputs are references joined by object: the two agree exactly when no object has two
references in the plan's range.
-/

namespace Oqueue.Compact

open Checked Tiling PartitionIndex IndexState

namespace CompactionPlan

/-- The reference to one object that covers a plan's range. -/
def output (self : CompactionPlan) (object : ObjectKey) : ObjectRef :=
  ⟨object, self.start, self.stop - self.start⟩

/-- The entry that retires a plan's inputs and installs its output. -/
def swap (self : CompactionPlan) (inputs : List ObjectRef) (object : ObjectKey) (version : Nat) :
    MetadataEntry :=
  ⟨version, .rangeCompacted self.topic self.partition inputs [self.output object]⟩

/-- The index accepts the swap of a plan's own inputs, and it replaces those entries
of the partition's history and nothing else. -/
def Installs (self : CompactionPlan) (s : IndexState) (object : ObjectKey) (version : Nat) : Prop :=
  ∃ work t p before after, derive s self = .ok work ∧
    s.apply [self.swap work.inputs object version] = .ok t ∧ s.partition self.key = some p ∧
    p.history = before ++ work.inputs ++ after ∧
    t.partition self.key = some { p with history := before ++ [self.output object] ++ after } ∧
    ∀ key, key ≠ self.key → t.partition key = s.partition key

/-- No object has two of the partition's references in a plan's range. -/
def SoleReferences (self : CompactionPlan) (s : IndexState) : Prop :=
  ∀ p, s.partition self.key = some p →
    ((within p self.start self.stop).map ObjectRef.object).Nodup

end CompactionPlan

variable {s : IndexState} {p : PartitionIndex} {planned : CompactionPlan} {object : ObjectKey}
  {version : Nat}

theorem PlannedRange.nonempty (h : PlannedRange p planned) :
    within p planned.start planned.stop ≠ [] := by
  intro none
  have tiles := h.tiles
  rw [none] at tiles
  exact absurd tiles (Nat.ne_of_lt h.range)

theorem PlannedRange.stop_le (h : PlannedRange p planned) (wf : p.WF) :
    planned.stop ≤ i64Max := by
  have last := h.tiles.getLast_hi (List.getLast?_eq_some_getLast h.nonempty)
  have among := (mem_within.mp (List.getLast_mem h.nonempty)).1
  exact last ▸ wf.stop_le (mem_refs_of_history among)

theorem output_tiles (h : PlannedRange p planned) (object : ObjectKey) :
    RefTiles (sortByBase [planned.output object]) planned.start planned.stop := by
  have ends : (planned.output object).stop = planned.stop := Nat.add_sub_of_le h.range.le
  exact ⟨rfl, ends ▸ h.range, ends⟩

theorem installs_of_sole (sound : s.Sound) (held : s.partition planned.key = some p)
    (h : PlannedRange p planned) (room : ∀ quota, s.quota = some quota → s.residents ≤ quota.ceiling)
    (above : ∀ v, s.appliedUpto = some v → v < version)
    (sole : ((within p planned.start planned.stop).map ObjectRef.object).Nodup) :
    planned.Installs s object version := by
  have wf := sound.wf _ p held
  have inputs : Grouping.collect ObjectRef.object spanBoth (within p planned.start planned.stop) =
      within p planned.start planned.stop := Grouping.collect_of_nodup sole
  have derived := derive_eq held wf h
  rw [inputs] at derived
  have sorted : sortByBase (within p planned.start planned.stop) =
      within p planned.start planned.stop := h.tiles.sort_eq (List.Perm.refl _)
  have hcovers : covers (within p planned.start planned.stop) [planned.output object] = .ok () :=
    covers_of_tiles (sorted.symm ▸ h.tiles) (output_tiles h object) h.range (h.stop_le wf)
  have hheld : ∀ r ∈ within p planned.start planned.stop, p.holdsInHistory r = true :=
    fun r hr => holdsInHistory_iff.mpr (mem_within.mp hr).1
  obtain ⟨before, after, hsplit, hswapped, -, -⟩ := wf.swap_block hcovers hheld
  rw [sorted] at hsplit
  have slot : (s.partition planned.key).getD {} = p := by
    rw [held]
    rfl
  have shape : p.replaceHistory (within p planned.start planned.stop) [planned.output object] =
      { p with history := before ++ [planned.output object] ++ after } := by
    have same : (p.replaceHistory (within p planned.start planned.stop) [planned.output object]) =
        { p with history := (p.replaceHistory (within p planned.start planned.stop)
          [planned.output object]).history } := rfl
    rw [same, hswapped]
    rfl
  obtain ⟨changes, happly⟩ : ∃ changes, applyEffect ((s.partition planned.key).getD {}) planned.key
      (.swapped (within p planned.start planned.stop) [planned.output object]) =
        .ok (p.replaceHistory (within p planned.start planned.stop) [planned.output object],
          changes) := by
    rw [slot]
    exact ⟨_, applyEffect_cases.mpr (.inr (.inl ⟨_, _, rfl, hcovers, hheld, rfl, rfl⟩))⟩
  have lengths := congrArg List.length hsplit
  have some_ := List.length_pos_iff.mpr h.nonempty
  simp only [List.length_append] at lengths
  obtain ⟨t, accepted, lands⟩ := apply_of_effect sound.exact
    (show effectOf (planned.swap (within p planned.start planned.stop) object version).record =
      some (planned.key, _) from rfl) above happly room (by
        rw [slot, shape]
        simp only [PartitionIndex.tiers, Tiers.total, List.length_append, List.length_singleton]
        omega)
  refine ⟨_, t, p, before, after, derived, accepted, held, hsplit, ?_, ?_⟩
  · unfold IndexState.partition
    rw [lands, Finmap.lookup_insert, shape]
  · intro key other
    unfold IndexState.partition
    rw [lands, Finmap.lookup_insert_of_ne _ other]

/-- An accepted swap retires the whole block, each reference as it is. -/
theorem sole_of_installs (wf : p.WF) (held : s.partition planned.key = some p)
    (h : PlannedRange p planned) (installs : planned.Installs s object version) :
    ((within p planned.start planned.stop).map ObjectRef.object).Nodup := by
  obtain ⟨work, t, -, -, -, derived, accepted, -⟩ := installs
  obtain rfl := Except.ok.inj ((derive_eq held wf h).symm.trans derived)
  obtain ⟨slot, changes, happly, -⟩ := effect_of_apply
    (show effectOf (planned.swap _ object version).record = some (planned.key, _) from rfl) accepted
  have slot_eq : (s.partition planned.key).getD {} = p := by
    rw [held]
    rfl
  rw [slot_eq] at happly
  obtain ⟨_, _, same, -⟩ | ⟨_, _, same, hcovers, hheld, -, -⟩ | ⟨_, same, -⟩ :=
    applyEffect_cases.mp happly
  · cases same
  · cases same
    obtain ⟨low, high, ne, retired, installed⟩ := covers_eq_ok hcovers
    have meets := output_tiles h object
    obtain rfl : low = planned.start :=
      installed.start_unique meets (List.cons_ne_nil _ _)
    obtain rfl : high = planned.stop := installed.end_unique meets
    have block : sortByBase (Grouping.collect ObjectRef.object spanBoth
        (within p planned.start planned.stop)) = within p planned.start planned.stop := by
      refine h.tiles.eq_of_subset retired fun r hr => ?_
      have bounds := retired.bounds hr
      exact mem_within.mpr ⟨holdsInHistory_iff.mp (hheld r ((sortByBase_perm _).subset hr)),
        bounds.1, bounds.2.2⟩
    refine Grouping.nodup_of_length object_spanBoth ?_
    exact (sortByBase_perm _).length_eq.symm.trans (congrArg List.length block)
  · cases same

/-- Every plan of every reachable index can be installed exactly when no object has
two of the partition's references in its range. -/
theorem planned_installs_iff {quota : Option IndexQuota} {pages : List (List MetadataEntry)}
    (folded : pages.foldlM IndexState.apply { quota := quota } = .ok s) {topic : TopicId}
    {partition start stop : Nat} (h : plan s topic partition start stop = .ok (.planned planned))
    (object : ObjectKey) (above : ∀ v, s.appliedUpto = some v → v < version) :
    planned.Installs s object version ↔ planned.SoleReferences s := by
  have sound := Sound.fold (Sound.empty quota) folded
  obtain ⟨-, p, held, range⟩ := planned_range sound.wf h
  constructor
  · intro installs p' held'
    obtain rfl : p = p' := Option.some.inj (held.symm.trans held')
    exact sole_of_installs (sound.wf _ p held) held range installs
  · intro sole
    exact installs_of_sole sound held range
      (fun ceiling => residents_fold folded) above (sole p held)

/-- Thirteen objects of so many spans of one record, and one that fills the tail. -/
def agedLog (spans : Nat) : List (List MetadataEntry) :=
  [((List.range 13).map fun i => ⟨i, .batchCommitted ⟨"o" ++ toString i⟩
      (List.replicate spans ⟨⟨"t"⟩, 0, 1, .full, none⟩) 5⟩) ++
    [⟨13, .batchCommitted ⟨"tail"⟩ (List.replicate 128 ⟨⟨"t"⟩, 0, 1, .full, none⟩) 5⟩]]

/-- The index a log folds to, and what is planned over a range of it. -/
def plannedOf (pages : List (List MetadataEntry)) (start stop : Nat) :
    Option (IndexState × CompactionPlan) :=
  (pages.foldlM IndexState.apply { quota := none }).toOption.bind fun s =>
    match plan s ⟨"t"⟩ 0 start stop with
    | .ok (.planned planned) => some (s, planned)
    | _ => none

theorem plannedOf_eq_some {pages : List (List MetadataEntry)} {start stop : Nat} :
    plannedOf pages start stop = some (s, planned) ↔
      pages.foldlM IndexState.apply { quota := none } = .ok s ∧
        plan s ⟨"t"⟩ 0 start stop = .ok (.planned planned) := by
  unfold plannedOf
  rw [Option.bind_eq_some_iff]
  constructor
  · rintro ⟨t, folded, h⟩
    split at h
    · rename_i found
      cases h
      cases hfold : pages.foldlM IndexState.apply { quota := none } with
      | error e =>
        rw [hfold] at folded
        cases folded
      | ok t' =>
        rw [hfold] at folded
        cases folded
        exact ⟨rfl, found⟩
    · cases h
  · rintro ⟨folded, found⟩
    refine ⟨s, by rw [folded]; rfl, ?_⟩
    rw [found]

/-- With one span each, the thirteen objects are swapped for one. -/
theorem planned_installs_iff_oneSpan : ∃ s planned,
    (agedLog 1).foldlM IndexState.apply { quota := none } = .ok s ∧
    plan s ⟨"t"⟩ 0 0 13 = .ok (.planned planned) ∧ planned.Installs s ⟨"compacted"⟩ 14 := by
  have shape : ((plannedOf (agedLog 1) 0 13).map fun found =>
      (found.1.appliedUpto, (found.1.partition found.2.key).map fun p =>
        decide ((within p found.2.start found.2.stop).map ObjectRef.object).Nodup)) =
          some (some 13, some true) := by decide +kernel
  obtain ⟨⟨s, planned⟩, found, fields⟩ := Option.map_eq_some_iff.mp shape
  obtain ⟨folded, hplan⟩ := plannedOf_eq_some.mp found
  obtain ⟨upto, sole⟩ := Prod.mk.inj fields
  refine ⟨s, planned, folded, hplan, ?_⟩
  refine (planned_installs_iff folded hplan ⟨"compacted"⟩ ?_).mpr ?_
  · intro v hv
    cases upto.symm.trans hv
    decide
  · intro p held
    rw [held] at sole
    exact of_decide_eq_true (Option.some.inj sole)

/-- With two spans each, the swap of the planned inputs is refused. -/
theorem planned_not_installed : ∃ s planned,
    (agedLog 2).foldlM IndexState.apply { quota := none } = .ok s ∧
    plan s ⟨"t"⟩ 0 0 26 = .ok (.planned planned) ∧
    ∀ version, ¬ planned.Installs s ⟨"compacted"⟩ version := by
  have shape : ((plannedOf (agedLog 2) 0 26).map fun found =>
      (found.1.partition found.2.key).map fun p =>
        decide ((within p found.2.start found.2.stop).map ObjectRef.object).Nodup) =
          some (some false) := by decide +kernel
  obtain ⟨⟨s, planned⟩, found, twice⟩ := Option.map_eq_some_iff.mp shape
  obtain ⟨folded, hplan⟩ := plannedOf_eq_some.mp found
  refine ⟨s, planned, folded, hplan, fun version installs => ?_⟩
  have sound := Sound.fold (Sound.empty none) folded
  obtain ⟨-, p, held, range⟩ := planned_range sound.wf hplan
  have sole := sole_of_installs (sound.wf _ p held) held range installs
  dsimp only at twice
  rw [held] at twice
  exact of_decide_eq_false (Option.some.inj twice) sole

end Oqueue.Compact
