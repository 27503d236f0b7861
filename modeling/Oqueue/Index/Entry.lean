import Oqueue.Index.Paging

/-!
# One entry at a time, for the index's callers

When a single entry is accepted, and what it does to offsets and references.
Nothing here looks inside a scratch again.
-/

namespace Oqueue

open Checked Tiling PartitionIndex

namespace IndexState

/-- Every resident reference of a partition, oldest first. -/
def refsOf (s : IndexState) (key : PartitionKey) : List ObjectRef :=
  (s.partition key).elim [] PartitionIndex.refs

theorem refsOf_eq (s : IndexState) (key : PartitionKey) :
    s.refsOf key = ((s.partition key).getD {}).refs := by
  unfold refsOf
  cases s.partition key <;> rfl

section
variable {s t : IndexState} {entry : MetadataEntry}

theorem apply_entry_eq_ok (unbounded : s.quota = none) :
    s.apply [entry] = .ok t ↔ s.advance entry = .ok t := by
  rw [apply_eq_ok, advance_eq_ok]
  simp [checkQuota, unbounded]

theorem apply_entry_version (h : s.apply [entry] = .ok t) :
    Above s.appliedUpto entry.version ∧ t.appliedUpto = some entry.version := by
  obtain ⟨σ, hσ, -, rfl⟩ := apply_eq_ok.mp h
  rw [List.foldlM_cons, bind_eq_ok] at hσ
  obtain ⟨_, hstep, hnil⟩ := hσ
  cases hnil
  obtain ⟨above, hprevious, -⟩ := Scratch.step_eq_ok.mp hstep
  exact ⟨above, hprevious⟩

theorem apply_commit (unbounded : s.quota = none) (above : Above s.appliedUpto entry.version)
    {staged : StagedSpans} (kind : effectOf entry.record = none)
    (hstaged : s.stageAll ∅ (spansOf entry.record) = .ok staged) :
    ∃ t, s.apply [entry] = .ok t ∧ ∀ key,
      t.endOffset key = s.stagedEnd staged key ∧
        t.refsOf key = s.refsOf key ++ stagedRefs staged key := by
  have hstep : s.scratchInit.step s entry = .ok ⟨some entry.version, staged, {}⟩ :=
    step_init_cases.mpr ⟨above, .inl ⟨kind, staged, hstaged, rfl⟩⟩
  have valid := (Scratch.Valid.init s).step hstep
  refine ⟨_, (apply_entry_eq_ok unbounded).mpr (advance_eq_ok.mpr ⟨_, hstep, rfl⟩), ?_⟩
  intro key
  refine ⟨valid.endOffset_landed key, ?_⟩
  rw [refsOf_eq, refsOf_eq, valid.slot_landed]
  unfold finish stagedRefs
  dsimp only
  cases staged.lookup key with
  | none => exact (List.append_nil _).symm
  | some span => exact refs_landSpan _ _

theorem apply_other (h : s.apply [entry] = .ok t) (kind : spansOf entry.record = []) :
    ∀ key, t.endOffset key = s.endOffset key := by
  obtain ⟨σ, hσ, -, rfl⟩ := apply_eq_ok.mp h
  rw [List.foldlM_cons, bind_eq_ok] at hσ
  obtain ⟨_, hstep, hnil⟩ := hσ
  cases hnil
  have valid := (Scratch.Valid.init s).step hstep
  obtain ⟨-, -, hstaged, -⟩ := Scratch.step_eq_ok.mp hstep
  rw [kind] at hstaged
  intro key
  rw [valid.endOffset_landed, ← Except.ok.inj hstaged]
  rfl

theorem apply_trim (unbounded : s.quota = none) {version : Nat} {topic : TopicId}
    {partition start : Nat} (above : Above s.appliedUpto version)
    (inside : start ≤ s.endOffset (topic, partition)) :
    ∃ t, s.apply [⟨version, .trimmed topic partition start⟩] = .ok t := by
  have happly : applyEffect ((s.partition (topic, partition)).getD {}) (topic, partition)
      (.trimmed start) = .ok (_, _) :=
    applyEffect_cases.mpr (.inr (.inr ⟨start, rfl, by rwa [endOffset_slotOf_default], rfl, rfl⟩))
  exact ⟨_, (apply_entry_eq_ok unbounded).mpr (advance_eq_ok.mpr
    ⟨_, step_init_cases.mpr ⟨above, .inr ⟨_, _, _, _, rfl, happly, rfl⟩⟩, rfl⟩)⟩

theorem apply_neutral (unbounded : s.quota = none) (above : Above s.appliedUpto entry.version)
    (noEffect : effectOf entry.record = none) (noSpans : spansOf entry.record = []) :
    ∃ t, s.apply [entry] = .ok t := by
  obtain ⟨t, ht, -⟩ := apply_commit unbounded above noEffect
    (show s.stageAll ∅ (spansOf entry.record) = .ok ∅ by rw [noSpans]; rfl)
  exact ⟨t, ht⟩

end

end IndexState

end Oqueue
