import Oqueue.Index.Paging

/-!
# How far a partition reaches

An entry never moves a partition's end back, and only a trim moves its log start. So an index
that has folded more of a log ends no earlier, and starts no later than the trims of what it
has folded more.
-/

namespace Oqueue

open Checked Tiling PartitionIndex

/-- A trim of a partition that would move its log start past an offset. -/
def MetadataRecord.TrimsPast (key : PartitionKey) (offset : Nat) (record : MetadataRecord) : Prop :=
  ∃ start, record = .trimmed key.1 key.2 start ∧ offset < start

namespace IndexState

variable {s t : IndexState} {entry : MetadataEntry}

theorem logStart_eq (s : IndexState) (key : PartitionKey) :
    s.logStart key = ((s.partition key).getD {}).logStart := by
  unfold logStart
  cases s.partition key <;> rfl

@[simp] theorem landSpan_logStart (slot : PartitionIndex) (span : StagedSpan) :
    (landSpan slot span).logStart = slot.logStart := by
  rw [landSpan_eq]
  exact (foldl_push_frame span.entries slot).2.2.2

theorem trim_logStart (slot : PartitionIndex) (start : Nat) :
    (slot.trim start).2.logStart = max slot.logStart start := by
  unfold PartitionIndex.trim
  split
  · rename_i before
    exact (Nat.max_eq_left before).symm
  · rename_i after
    exact (Nat.max_eq_right (Nat.le_of_lt (not_le.mp after))).symm

theorem record_of_trimmed {record : MetadataRecord} {key : PartitionKey} {start : Nat}
    (kind : effectOf record = some (key, .trimmed start)) :
    record = .trimmed key.1 key.2 start := by
  cases record with
  | trimmed topic partition start' =>
    cases kind
    rfl
  | batchCommitted | manifestPublished | rangeCompacted | epochChanged | topicRetentionChanged =>
    cases kind

theorem record_of_swapped {record : MetadataRecord} {key : PartitionKey}
    {retiring installing : List ObjectRef}
    (kind : effectOf record = some (key, .swapped retiring installing)) :
    record = .rangeCompacted key.1 key.2 retiring installing := by
  cases record with
  | rangeCompacted topic partition retiring' installing' =>
    cases kind
    rfl
  | batchCommitted | manifestPublished | trimmed | epochChanged | topicRetentionChanged =>
    cases kind

theorem partition_landed_effect (s : IndexState) (version : Option Nat) (key key' : PartitionKey)
    (slot : PartitionIndex) (changes : List RefChange) (taken : AList fun _ : PartitionKey => Nat) :
    (s.landed ⟨version, ∅, ⟨AList.insert key' slot ∅, changes, taken⟩⟩).partition key =
      if key = key' then some slot else s.partition key := by
  unfold partition
  rw [partitions_landed_effect, Table.lookup_insert_eq]

theorem advance_endOffset_le (h : s.advance entry = .ok t) (key : PartitionKey) :
    s.endOffset key ≤ t.endOffset key := by
  obtain ⟨σ, hstep, rfl⟩ := advance_eq_ok.mp h
  have valid := (Scratch.Valid.init s).step hstep
  rw [valid.endOffset_landed]
  unfold stagedEnd
  cases staged : σ.staged.lookup key with
  | none => exact Nat.le_refl _
  | some span => exact (valid.continuous key span staged).tiles.le

/-- A partition's log start stays where it is unless the entry trims the partition past it. -/
theorem advance_logStart_le (h : s.advance entry = .ok t) {key : PartitionKey} {offset : Nat}
    (started : s.logStart key ≤ offset) (keeps : ¬ entry.record.TrimsPast key offset) :
    t.logStart key ≤ offset := by
  obtain ⟨σ, hstep, rfl⟩ := advance_eq_ok.mp h
  have valid := (Scratch.Valid.init s).step hstep
  rw [logStart_eq] at started
  rcases step_init_cases.mp hstep with
    ⟨-, ⟨-, staged, -, rfl⟩ | ⟨key', effect, slot, changes, kind, applied, rfl⟩⟩
  · rw [logStart_eq, valid.slot_landed]
    unfold finish slotOf
    dsimp only
    cases staged.lookup key with
    | none => exact started
    | some span =>
      rw [Option.elim_some, landSpan_logStart]
      exact started
  · rw [logStart_eq, partition_landed_effect]
    by_cases same : key = key'
    · subst same
      rw [if_pos rfl, Option.getD_some]
      obtain ⟨_, _, -, -, rfl, -⟩ | ⟨_, _, -, -, -, rfl, -⟩ | ⟨start, rfl, -, rfl, -⟩ :=
        applyEffect_cases.mp applied
      · exact started
      · exact started
      · rw [trim_logStart]
        refine Nat.max_le.mpr ⟨started, not_lt.mp fun past => keeps ⟨start, ?_, past⟩⟩
        exact record_of_trimmed kind
    · rw [if_neg same]
      exact started

theorem foldlM_endOffset_le {entries : List MetadataEntry}
    (h : entries.foldlM advance s = .ok t) (key : PartitionKey) :
    s.endOffset key ≤ t.endOffset key := by
  induction entries generalizing s with
  | nil =>
    cases h
    exact Nat.le_refl _
  | cons entry rest ih =>
    rw [List.foldlM_cons, bind_eq_ok] at h
    obtain ⟨mid, hstep, hrest⟩ := h
    exact (advance_endOffset_le hstep key).trans (ih hrest)

theorem foldlM_logStart_le {entries : List MetadataEntry}
    (h : entries.foldlM advance s = .ok t) {key : PartitionKey} {offset : Nat}
    (started : s.logStart key ≤ offset)
    (keeps : ∀ entry ∈ entries, ¬ entry.record.TrimsPast key offset) :
    t.logStart key ≤ offset := by
  induction entries generalizing s with
  | nil =>
    cases h
    exact started
  | cons entry rest ih =>
    rw [List.foldlM_cons, bind_eq_ok] at h
    obtain ⟨mid, hstep, hrest⟩ := h
    exact ih hrest (advance_logStart_le hstep started (keeps entry (List.mem_cons_self ..)))
      fun other among => keeps other (List.mem_cons_of_mem _ among)

end IndexState

end Oqueue
