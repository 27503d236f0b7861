import Oqueue.Index.Landing

/-!
# What every folded index keeps true

The partitions satisfy their representation invariant, the maintained tier
counts are the counts, and no object is counted for less than what is resident.
One entry keeps all of it; whole pages follow from single entries.
-/

namespace Oqueue

open Checked Tiling PartitionIndex

/-- The tier counts a table of partitions amounts to. -/
def Tiers.of (partitions : Finmap fun _ : PartitionKey => PartitionIndex) : Tiers :=
  ⟨Table.total (fun p => p.tiers.tail) partitions,
    Table.total (fun p => p.tiers.history) partitions,
    Table.total (fun p => p.tiers.manifests) partitions⟩

namespace IndexState

def Exact (s : IndexState) : Prop := s.tiers = Tiers.of s.partitions

structure Sound (s : IndexState) : Prop where
  wf : ∀ key p, s.partition key = some p → p.WF
  exact : s.Exact
  counted : ∀ object, Table.total (naming object) s.partitions ≤ s.references.get object
  noZero : s.references.NoZero

theorem Sound.empty (quota : Option IndexQuota) : Sound { quota := quota } where
  wf := by simp [partition]
  exact := rfl
  counted := by simp
  noZero := References.NoZero.empty

theorem Sound.new : IndexState.new.Sound := Sound.empty none

theorem Exact.install {s : IndexState} (exact : s.Exact) (key : PartitionKey)
    (slot : PartitionIndex) : (s.install key slot).Exact := by
  have moved : ∀ f : PartitionIndex → Nat, Table.total f s.partitions + f slot -
      (s.partition key).elim 0 f = Table.total f (s.partitions.insert key slot) := by
    intro f
    have := Table.total_insert f s.partitions key slot
    unfold partition
    omega
  have before : ∀ g : Tiers → Nat, g {} = 0 → g ((s.partition key).elim {} PartitionIndex.tiers) =
      (s.partition key).elim 0 fun p => g p.tiers := by
    intro g zero
    cases s.partition key with
    | none => exact zero
    | some p => rfl
  unfold Exact at exact ⊢
  unfold IndexState.install Tiers.add Tiers.sub
  dsimp only
  rw [exact, before Tiers.tail rfl, before Tiers.history rfl, before Tiers.manifests rfl]
  simp only [Tiers.of, moved]

theorem Exact.land {s : IndexState} (exact : s.Exact) (staged : StagedSpans)
    (projected : Projected) : (s.land staged projected).Exact := by
  have spans : ∀ (l : List (Sigma fun _ : PartitionKey => StagedSpan)) (s : IndexState), s.Exact →
      (l.foldl (fun (s : IndexState) e => if e.1 ∈ projected then s
        else s.install e.1 (landSpan ((s.partition e.1).getD {}) e.2)) s).Exact := by
    intro l
    induction l with
    | nil => exact fun s h => h
    | cons e rest ih =>
      intro s h
      rw [List.foldl_cons]
      apply ih
      split
      · exact h
      · exact h.install _ _
  have slots : ∀ (l : List (Sigma fun _ : PartitionKey => PartitionIndex)) (s : IndexState),
      s.Exact → (l.foldl (fun (s : IndexState) e => s.install e.1 e.2) s).Exact := by
    intro l
    induction l with
    | nil => exact fun s h => h
    | cons e rest ih => exact fun s h => ih _ (h.install _ _)
  exact slots _ _ (spans _ _ exact)

theorem Exact.landed {s : IndexState} (exact : s.Exact) (σ : Scratch) : (s.landed σ).Exact :=
  exact.land σ.staged (settled σ)

theorem quota_land (s : IndexState) (staged : StagedSpans) (projected : Projected) :
    (s.land staged projected).quota = s.quota := by
  have spans : ∀ (l : List (Sigma fun _ : PartitionKey => StagedSpan)) (s : IndexState),
      (l.foldl (fun (s : IndexState) e => if e.1 ∈ projected then s
        else s.install e.1 (landSpan ((s.partition e.1).getD {}) e.2)) s).quota = s.quota := by
    intro l
    induction l with
    | nil => exact fun s => rfl
    | cons e rest ih =>
      intro s
      rw [List.foldl_cons, ih]
      split <;> rfl
  have slots : ∀ (l : List (Sigma fun _ : PartitionKey => PartitionIndex)) (s : IndexState),
      (l.foldl (fun (s : IndexState) e => s.install e.1 e.2) s).quota = s.quota := by
    intro l
    induction l with
    | nil => exact fun s => rfl
    | cons e rest ih => exact fun s => ih _
  exact (slots _ _).trans (spans _ _)

@[simp] theorem quota_landed (s : IndexState) (σ : Scratch) : (s.landed σ).quota = s.quota :=
  quota_land s σ.staged (settled σ)

theorem spansOf_of_effect {record : MetadataRecord} {effect : PartitionKey × Effect}
    (h : effectOf record = some effect) : spansOf record = [] := by
  cases record <;> first | rfl | simp [effectOf] at h

/-- What one entry does to a state: it commits spans, or it has one effect. -/
theorem step_init_cases {s : IndexState} {entry : MetadataEntry} {σ : Scratch} :
    s.scratchInit.step s entry = .ok σ ↔
      Above s.appliedUpto entry.version ∧
      ((effectOf entry.record = none ∧ ∃ staged, s.stageAll ∅ (spansOf entry.record) = .ok staged ∧
          σ = ⟨some entry.version, staged, {}⟩) ∨
        ∃ key effect slot changes, effectOf entry.record = some (key, effect) ∧
          applyEffect ((s.partition key).getD {}) key effect = .ok (slot, changes) ∧
          σ = ⟨some entry.version, ∅, ⟨AList.insert key slot ∅, changes, AList.insert key 0 ∅⟩⟩) := by
  obtain ⟨previous, staged, proj⟩ := σ
  rw [Scratch.step_eq_ok]
  refine and_congr_right fun above => ?_
  cases hkind : effectOf entry.record with
  | none =>
    simp only [Option.elim_none, scratchInit, Except.ok.injEq, true_and, Scratch.mk.injEq]
    constructor
    · rintro ⟨hprevious, hstaged, hproj⟩
      exact .inl ⟨staged, hstaged, hprevious, rfl, hproj.symm⟩
    · rintro (⟨_, hstaged, hprevious, rfl, hproj⟩ | ⟨_, _, _, _, h, -⟩)
      · exact ⟨hprevious, hstaged, hproj.symm⟩
      · simp at h
  | some found =>
    obtain ⟨key, effect⟩ := found
    have valid := Scratch.Valid.init s
    have once := @Scratch.Valid.projectEffect_eq_ok s s.scratchInit valid key effect proj
    rw [spansOf_of_effect hkind]
    simp only [Option.elim_some, reduceCtorEq, false_and, false_or, Option.some.injEq,
      Prod.mk.injEq, Scratch.mk.injEq]
    constructor
    · rintro ⟨hprevious, hstaged, hproj⟩
      obtain rfl : ∅ = staged := Except.ok.inj hstaged
      obtain ⟨slot, changes, happly, rfl⟩ := once.mp hproj
      exact ⟨key, effect, slot, changes, ⟨rfl, rfl⟩, happly, hprevious, rfl, rfl⟩
    · rintro ⟨_, _, slot, changes, ⟨rfl, rfl⟩, happly, hprevious, rfl, hproj⟩
      exact ⟨hprevious, rfl, once.mpr ⟨slot, changes, happly, hproj⟩⟩

theorem total_naming_land (object : ObjectKey) (s : IndexState) (staged : StagedSpans) :
    Table.total (naming object) (s.land staged ∅).partitions =
      Table.total (naming object) s.partitions + (stagedChanges staged).count (.added object) := by
  unfold land stagedChanges
  dsimp only [AList.empty_entries, List.foldl_nil]
  simp only [AList.notMem_empty, if_false]
  generalize staged.entries = l
  induction l generalizing s with
  | nil => simp
  | cons e rest ih =>
    have trade := Table.total_insert (naming object) s.partitions e.1
      (landSpan ((s.partition e.1).getD {}) e.2)
    have grown := naming_landSpan object ((s.partition e.1).getD {}) e.2
    have old : (s.partitions.lookup e.1).elim 0 (naming object) =
        ((s.partition e.1).getD {}).naming object := by
      unfold partition
      cases s.partitions.lookup e.1 <;> rfl
    have added := count_added_map object (e.2.entries.map TailEntry.reference)
    rw [List.map_map] at added
    rw [List.foldl_cons, ih, List.flatMap_cons, List.count_append]
    simp only [install] at trade ⊢
    simp only [Function.comp_def] at added
    omega

theorem count_dropped_stagedChanges (object : ObjectKey) (staged : StagedSpans) :
    (stagedChanges staged).count (.dropped object) = 0 := by
  rw [List.count_eq_zero]
  simp [stagedChanges]

theorem partitions_landed_effect (s : IndexState) (version : Option Nat) (key : PartitionKey)
    (slot : PartitionIndex) (changes : List RefChange) (taken : AList fun _ : PartitionKey => Nat) :
    (s.landed ⟨version, ∅, ⟨AList.insert key slot ∅, changes, taken⟩⟩).partitions =
      s.partitions.insert key slot := by
  apply Finmap.ext_lookup
  intro key'
  have lands := lookup_land s ∅ (settled ⟨version, ∅, ⟨AList.insert key slot ∅, changes, taken⟩⟩) key'
  rw [lookup_settled, Table.alist_lookup_insert_eq] at lands
  change (s.land ∅ (settled ⟨version, ∅, ⟨AList.insert key slot ∅, changes, taken⟩⟩)).partition key' = _
  rw [lands, Table.lookup_insert_eq]
  split <;> rfl

theorem Sound.slot_wf {s : IndexState} (sound : s.Sound) (key : PartitionKey) :
    ((s.partition key).getD {}).WF := by
  cases held : s.partition key with
  | none => exact WF.default
  | some p => exact sound.wf key p held

/-- How many entries naming an object a record hands over to a manifest. -/
def absorbedBy (s : IndexState) (object : ObjectKey) (record : MetadataRecord) : Nat :=
  (effectOf record).elim 0 fun effect =>
    effect.2.absorbs ((s.partition effect.1).getD {}) object

/-- One entry moves an object's count as it moves what is resident, but for what
it hands over. -/
theorem Sound.counts_step {s : IndexState} (sound : s.Sound) {entry : MetadataEntry} {σ : Scratch}
    (h : s.scratchInit.step s entry = .ok σ) (object : ObjectKey) :
    (s.landed σ).references.get object + Table.total (naming object) s.partitions =
      s.references.get object + Table.total (naming object) (s.landed σ).partitions +
        s.absorbedBy object entry.record := by
  have counted := sound.counted object
  rcases step_init_cases.mp h with ⟨-, ⟨kind, staged, -, rfl⟩ |
    ⟨key, effect, slot, changes, kind, happly, rfl⟩⟩
  · have resident := total_naming_land object s staged
    change (s.references.apply ([] ++ stagedChanges staged)).get object + _ =
      _ + Table.total (naming object) (s.land staged ∅).partitions + _
    rw [References.get_apply, List.nil_append, count_dropped_stagedChanges, resident, absorbedBy,
      kind, Option.elim_none]
    omega
  · have trade := Table.total_insert (naming object) s.partitions key slot
    have effectOn := applyEffect_naming (sound.slot_wf key) happly object
    have old : (s.partitions.lookup key).elim 0 (naming object) =
        ((s.partition key).getD {}).naming object := by
      unfold partition
      cases s.partitions.lookup key <;> rfl
    have resident : (s.partitions.lookup key).elim 0 (naming object) ≤
        Table.total (naming object) s.partitions := by
      have split := Table.total_erase (naming object) s.partitions key
      omega
    have nothing : stagedChanges ∅ = [] := rfl
    rw [partitions_landed_effect]
    change (s.references.apply (changes ++ stagedChanges ∅)).get object + _ = _
    rw [References.get_apply, nothing, List.append_nil, absorbedBy, kind, Option.elim_some]
    dsimp only
    omega

theorem Sound.step {s : IndexState} (sound : s.Sound) {entry : MetadataEntry} {σ : Scratch}
    (h : s.scratchInit.step s entry = .ok σ) : (s.landed σ).Sound := by
  have valid := (Scratch.Valid.init s).step h
  have counted : ∀ object, Table.total (naming object) (s.landed σ).partitions ≤
      (s.landed σ).references.get object := by
    intro object
    have before := sound.counted object
    have moved := sound.counts_step h object
    omega
  refine ⟨?_, sound.exact.landed σ, counted, sound.noZero.apply _⟩
  rcases step_init_cases.mp h with ⟨-, ⟨-, staged, hstaged, rfl⟩ |
    ⟨key, effect, slot, changes, -, happly, rfl⟩⟩
  · intro key p hp
    rw [valid.partition_landed] at hp
    cases held : staged.lookup key with
    | none =>
      simp only [held, AList.lookup_empty, and_self, if_true] at hp
      exact sound.wf key p hp
    | some span =>
      simp only [held, reduceCtorEq, and_false, if_false, Option.some.injEq] at hp
      subst hp
      apply (sound.slot_wf key).landSpan
      have continues := valid.continuous key span held
      rw [endOffset_slotOf_default]
      simpa [takenOf, finish] using continues
  · intro key' p hp
    unfold partition at hp
    rw [partitions_landed_effect, Table.lookup_insert_eq] at hp
    split at hp
    · cases hp
      exact (sound.slot_wf key).applyEffect happly
    · exact sound.wf key' p hp

end IndexState

end Oqueue
