import Oqueue.Index.Quota

/-!
# A page of one effect

An entry that has an effect on one partition is accepted as that effect is, and
leaves every other partition as it was. Where it does not grow the partition, no
ceiling the index is under can refuse it.
-/

namespace Oqueue

open Checked

namespace IndexState

theorem residents_fold {quota : Option IndexQuota} {pages : List (List MetadataEntry)}
    {s : IndexState} (folded : pages.foldlM apply { quota := quota } = .ok s)
    {ceiling : IndexQuota} (held : s.quota = some ceiling) : s.residents ≤ ceiling.ceiling := by
  have kept := foldlM_invariant
    (fun t : IndexState => t.Sound ∧ ∀ c, t.quota = some c → t.residents ≤ c.ceiling)
    (fun t page _ u before accepted => ⟨before.1.apply accepted, fun c held =>
      before.1.exact.apply_residents accepted ((quota_apply accepted) ▸ held)⟩)
    ⟨Sound.empty quota, fun _ _ => Nat.zero_le _⟩ folded
  exact kept.2 ceiling held

variable {s t : IndexState} {entry : MetadataEntry} {key : PartitionKey} {effect : Effect}

theorem effect_of_apply (kind : effectOf entry.record = some (key, effect))
    (accepted : s.apply [entry] = .ok t) : ∃ slot changes,
      applyEffect ((s.partition key).getD {}) key effect = .ok (slot, changes) ∧
        t.partitions = s.partitions.insert key slot := by
  obtain ⟨σ, loop, -, rfl⟩ := apply_eq_ok.mp accepted
  rw [List.foldlM_cons, bind_eq_ok] at loop
  obtain ⟨σ', hstep, hlast⟩ := loop
  cases hlast
  rcases step_init_cases.mp hstep with ⟨-, ⟨none, -⟩ | ⟨_, _, slot, changes, same, happly, rfl⟩⟩
  · rw [kind] at none
    cases none
  · rw [kind] at same
    cases same
    exact ⟨slot, changes, happly, partitions_landed_effect ..⟩

/-- An effect that does not grow its partition is accepted under every ceiling the
index is under. -/
theorem apply_of_effect (exact : s.Exact) (kind : effectOf entry.record = some (key, effect))
    (above : Above s.appliedUpto entry.version) {slot : PartitionIndex} {changes : List RefChange}
    (happly : applyEffect ((s.partition key).getD {}) key effect = .ok (slot, changes))
    (room : ∀ quota, s.quota = some quota → s.residents ≤ quota.ceiling)
    (shrinks : slot.tiers.total ≤ ((s.partition key).getD {}).tiers.total) :
    ∃ t, s.apply [entry] = .ok t ∧ t.partitions = s.partitions.insert key slot := by
  have hstep := step_init_cases.mpr ⟨above, .inr ⟨key, effect, slot, changes, kind, happly, rfl⟩⟩
  have loop : [entry].foldlM (Scratch.step s) s.scratchInit = .ok ⟨some entry.version, ∅,
      ⟨AList.insert key slot ∅, changes, AList.insert key 0 ∅⟩⟩ := by
    rw [List.foldlM_cons, hstep, bind_ok]
    rfl
  have lands := partitions_landed_effect s (some entry.version) key slot changes (AList.insert key 0 ∅)
  have count : (s.landed ⟨some entry.version, ∅, ⟨AList.insert key slot ∅, changes,
      AList.insert key 0 ∅⟩⟩).residents ≤ s.residents := by
    have trade := Table.total_insert (fun p => p.tiers.total) s.partitions key slot
    have old : (s.partitions.lookup key).elim 0 (fun p => p.tiers.total) =
        ((s.partition key).getD {}).tiers.total := by
      unfold partition
      cases s.partitions.lookup key <;> rfl
    unfold residents
    rw [lands]
    omega
  refine ⟨_, apply_eq_ok.mpr ⟨_, loop, ?_, rfl⟩, lands⟩
  refine (exact.checkQuota_eq _ _).1.mpr fun quota held => ?_
  exact le_trans count (room quota held)

end IndexState

end Oqueue
