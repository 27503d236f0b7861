import Oqueue.Index.Paging

/-!
# The partitions of every reachable index

What the searches of `findBatches` and the surveys over history rely on, read
off the invariant that every page keeps.
-/

namespace Oqueue

open Checked Tiling

namespace PartitionIndex

/-- What a reader of one partition relies on, history followed by tail. -/
structure Represents (p : PartitionIndex) : Prop where
  nonzero : ∀ r ∈ p.refs, r.recordCount ≠ 0
  contiguous : p.refs.IsChain fun r next => next.baseOffset = r.baseOffset + r.recordCount
  ascending : p.refs.Pairwise fun r next => r.baseOffset < next.baseOffset
  ends : ∀ r, p.refs.getLast? = some r → r.baseOffset + r.recordCount = p.endOffset
  window : p.tail.length ≤ tailWindowEntries
  started : p.logStart ≤ p.endOffset
  above_manifest : ∀ key upto, p.manifest = some (key, upto) → ∀ r ∈ p.refs, upto ≤ r.baseOffset
  meets_manifest : ∀ key upto, p.manifest = some (key, upto) →
    ∀ r, p.refs.head? = some r → r.baseOffset = upto

theorem WF.represents {p : PartitionIndex} (wf : p.WF) : p.Represents := by
  obtain ⟨first, htiles⟩ := wf.tiles
  exact {
    nonzero := by
      intro r hr zero
      have width := (htiles.bounds hr).2.1
      simp only [ObjectRef.stop, zero] at width
      omega
    contiguous := htiles.isChain
    ascending := htiles.pairwise_lo
    ends := fun r last => htiles.getLast_hi last
    window := wf.window
    started := wf.logStart_le
    above_manifest := fun key upto held r hr => ((wf.manifest_meets _ held).bounds hr).1
    meets_manifest := fun key upto held r first => (wf.manifest_meets _ held).head_lo first }

end PartitionIndex

namespace IndexState

/-- Every partition of every index folded from empty, under any ceiling. -/
theorem partition_represents {quota : Option IndexQuota} {pages : List (List MetadataEntry)}
    {s : IndexState} (folded : pages.foldlM apply { quota := quota } = .ok s)
    {key : PartitionKey} {p : PartitionIndex} (held : s.partition key = some p) :
    p.Represents :=
  ((Sound.fold (Sound.empty quota) folded).wf key p held).represents

/-- Three commits of one partition, with a trim through the second after two of them. -/
def trimmedLog : List (List MetadataEntry) :=
  [[⟨0, .batchCommitted ⟨"a"⟩ [⟨⟨"t"⟩, 0, 2, .full, none⟩, ⟨⟨"t"⟩, 0, 3, .full, none⟩] 5⟩,
    ⟨1, .trimmed ⟨"t"⟩ 0 3⟩],
   [⟨2, .batchCommitted ⟨"b"⟩ [⟨⟨"t"⟩, 0, 1, .full, none⟩] 6⟩]]

theorem partition_represents_trimmedLog :
    ∃ s p, trimmedLog.foldlM apply { quota := none } = .ok s ∧
      s.partition (⟨"t"⟩, 0) = some p ∧ p.refs.length = 2 ∧ p.Represents := by
  refine ⟨_, _, rfl, rfl, rfl, ?_⟩
  exact @partition_represents none trimmedLog _ rfl (⟨"t"⟩, 0) _ rfl

end IndexState

end Oqueue
