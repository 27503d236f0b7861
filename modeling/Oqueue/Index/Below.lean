import Oqueue.Index.Entry
import Oqueue.Index.Extent

/-!
# What enters a partition below an offset

Commits enter at a partition's end. Below an offset no further than that, only a swap can
put a reference that was not there; and the fold of a trim takes the last name off an
object only if a reference it drops there names it.
-/

namespace Oqueue

open Checked Tiling PartitionIndex

/-- A swap of a partition that puts a reference ending at or below an offset into it. -/
def MetadataRecord.InstallsBelow (key : PartitionKey) (offset : Nat) (record : MetadataRecord) : Prop :=
  ∃ retiring installing, record = .rangeCompacted key.1 key.2 retiring installing ∧
    ∃ reference ∈ installing, reference.stop ≤ offset

namespace PartitionIndex

theorem WF.trim_objects {p : PartitionIndex} (wf : p.WF) {start : Nat} (moves : p.logStart < start) :
    (p.trim start).1 = (p.refs.filter fun r => decide (r.stop ≤ start)).map ObjectRef.object := by
  have ends : ∀ r ∈ p.refs, dead start r = decide (r.stop ≤ start) := by
    intro r hr
    unfold dead
    rw [wf.endOffset_ok hr]
  have same : p.refs.filter (fun r => decide (r.stop ≤ start)) = p.refs.filter (dead start) :=
    List.filter_congr fun r hr => (ends r hr).symm
  rw [same]
  unfold PartitionIndex.trim refs
  rw [if_neg (Nat.not_le.mpr moves), List.filter_append, List.filter_map]
  rfl

theorem trim_still {p : PartitionIndex} {start : Nat} (still : start ≤ p.logStart) :
    (p.trim start).1 = [] := by
  unfold PartitionIndex.trim
  rw [if_pos still]

theorem WF.mem_trim {p : PartitionIndex} (wf : p.WF) {start : Nat} {object : ObjectKey}
    (dropped : object ∈ (p.trim start).1) : ∃ r ∈ p.refs, r.stop ≤ start ∧ r.object = object := by
  rcases Nat.lt_or_ge p.logStart start with moves | still
  · rw [wf.trim_objects moves] at dropped
    obtain ⟨r, hr, named⟩ := List.mem_map.mp dropped
    obtain ⟨held, ends⟩ := List.mem_filter.mp hr
    exact ⟨r, held, of_decide_eq_true ends, named⟩
  · rw [trim_still still] at dropped
    cases dropped

end PartitionIndex

theorem applyEffect_enters {slot slot' : PartitionIndex} {key : PartitionKey} {effect : Effect}
    {changes : List RefChange} (wf : slot.WF)
    (h : applyEffect slot key effect = .ok (slot', changes)) {r : ObjectRef} (there : r ∈ slot'.refs) :
    r ∈ slot.refs ∨ ∃ retiring installing, effect = .swapped retiring installing ∧ r ∈ installing := by
  rcases applyEffect_cases.mp h with ⟨manifest, upto, -, -, rfl, -⟩ |
    ⟨retiring, installing, rfl, hcovers, held, rfl, -⟩ | ⟨start, -, -, rfl, -⟩
  · rcases List.mem_append.mp there with old | tail
    · exact .inl (mem_refs_of_history (List.mem_of_mem_filter old))
    · exact .inl (List.mem_append_right _ tail)
  · obtain ⟨before, after, hold, hnew, -, -⟩ := wf.swap_block hcovers held
    rcases List.mem_append.mp there with old | tail
    · rw [hnew, List.append_assoc] at old
      rcases List.mem_append.mp old with early | later
      · apply Or.inl
        apply mem_refs_of_history
        rw [hold, List.append_assoc]
        exact List.mem_append_left _ early
      · rcases List.mem_append.mp later with new | late
        · exact .inr ⟨retiring, installing, rfl, (sortByBase_perm installing).subset new⟩
        · apply Or.inl
          apply mem_refs_of_history
          rw [hold]
          exact List.mem_append_right _ late
    · exact .inl (List.mem_append_right _ tail)
  · apply Or.inl
    unfold PartitionIndex.trim at there
    split at there
    · exact there
    · rcases List.mem_append.mp there with old | tail
      · exact mem_refs_of_history (List.mem_of_mem_filter old)
      · obtain ⟨e, he, rfl⟩ := List.mem_map.mp tail
        exact mem_refs_of_tail (List.mem_of_mem_filter he)

namespace IndexState

variable {s t : IndexState} {entry : MetadataEntry}

theorem Sound.advance_refsOf (sound : s.Sound) (h : s.advance entry = .ok t) {key : PartitionKey}
    {offset : Nat} (reached : offset ≤ s.endOffset key)
    (keeps : ¬ entry.record.InstallsBelow key offset) {r : ObjectRef} (there : r ∈ t.refsOf key)
    (ends : r.stop ≤ offset) : r ∈ s.refsOf key := by
  obtain ⟨σ, hstep, rfl⟩ := advance_eq_ok.mp h
  have valid := (Scratch.Valid.init s).step hstep
  rw [refsOf_eq] at there ⊢
  rcases step_init_cases.mp hstep with
    ⟨-, ⟨-, staged, -, rfl⟩ | ⟨key', effect, slot, changes, kind, applied, rfl⟩⟩
  · rw [valid.slot_landed] at there
    unfold finish at there
    dsimp only at there
    cases held : staged.lookup key with
    | none =>
      rw [held] at there
      exact there
    | some span =>
      rw [held, Option.elim_some, refs_landSpan] at there
      rcases List.mem_append.mp there with old | new
      · exact old
      · have tiles := (valid.continuous key span held).tiles
        have bounds := tiles.bounds new
        have := reached
        omega
  · rw [partition_landed_effect] at there
    by_cases same : key = key'
    · subst same
      rw [if_pos rfl, Option.getD_some] at there
      rcases applyEffect_enters (sound.slot_wf key) applied there with old | ⟨retiring, installing, rfl, new⟩
      · exact old
      · exact absurd ⟨retiring, installing, record_of_swapped kind, r, new, ends⟩ keeps
    · rw [if_neg same] at there
      exact there

theorem Sound.foldlM_refsOf (sound : s.Sound) {entries : List MetadataEntry}
    (h : entries.foldlM advance s = .ok t) {key : PartitionKey} {offset : Nat}
    (reached : offset ≤ s.endOffset key)
    (keeps : ∀ entry ∈ entries, ¬ entry.record.InstallsBelow key offset) {r : ObjectRef}
    (there : r ∈ t.refsOf key) (ends : r.stop ≤ offset) : r ∈ s.refsOf key := by
  induction entries generalizing s with
  | nil =>
    cases h
    exact there
  | cons entry rest ih =>
    rw [List.foldlM_cons, bind_eq_ok] at h
    obtain ⟨mid, hstep, hrest⟩ := h
    have further : mid.Sound := by
      obtain ⟨σ, step, rfl⟩ := advance_eq_ok.mp hstep
      exact sound.step step
    have later := ih further hrest (reached.trans (advance_endOffset_le hstep key))
      fun other among => keeps other (List.mem_cons_of_mem _ among)
    exact sound.advance_refsOf hstep reached (keeps entry (List.mem_cons_self ..)) later ends

/-- An object that the fold of a trim leaves without a name was named below the trim. -/
theorem Sound.named_below_trim (sound : s.Sound) {version start partition : Nat} {topic : TopicId}
    (h : s.apply [⟨version, .trimmed topic partition start⟩] = .ok t) {object : ObjectKey}
    (named : 0 < s.references.get object) (unnamed : t.references.get object = 0) :
    ∃ r ∈ s.refsOf (topic, partition), r.stop ≤ start ∧ r.object = object := by
  obtain ⟨σ, loop, -, rfl⟩ := apply_eq_ok.mp h
  rw [List.foldlM_cons, bind_eq_ok] at loop
  obtain ⟨_, hstep, hnil⟩ := loop
  cases hnil
  rcases step_init_cases.mp hstep with ⟨-, ⟨none, -⟩ | ⟨key, effect, slot, changes, kind, applied, rfl⟩⟩
  · cases none
  · cases kind
    rcases applyEffect_cases.mp applied with ⟨_, _, same, -⟩ | ⟨_, _, same, -⟩ | ⟨_, same, -, -, rfl⟩
    · cases same
    · cases same
    · cases same
      have counts : (s.references.apply
          (((((s.partition (topic, partition)).getD {}).trim start).1.map RefChange.dropped) ++
            stagedChanges ∅)).get object = 0 := unnamed
      rw [show stagedChanges ∅ = [] from rfl, List.append_nil, References.get_apply,
        count_dropped_map, count_added_dropped] at counts
      have dropped : object ∈ (((s.partition (topic, partition)).getD {}).trim start).1 := by
        apply List.count_pos_iff.mp
        omega
      rw [refsOf_eq]
      exact (sound.slot_wf (topic, partition)).mem_trim dropped

end IndexState

end Oqueue
