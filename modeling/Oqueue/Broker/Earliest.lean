import Oqueue.Broker.FetchBudget
import Oqueue.Broker.ListOffsets

/-!
# Whether a consumer can go on from the earliest offset

The earliest offset is answered as zero, whatever the index's log start is. A fetch from there
is out of range once a trim has moved the log start, so a consumer can go on from what it was
told exactly while nothing has been trimmed.
-/

namespace Oqueue.Broker

open Codec Checked

namespace Cluster

variable {self : Cluster} {topic : TopicId} {partition start : Nat} {p : PartitionIndex}
  {allowance : Allowance}

/-- The objects of a partition are there: its manifests list what the index says they cover,
and every batch of theirs and of the index has its bytes. -/
structure Present (cluster : Cluster) (topic : TopicId) (partition : Nat) (p : PartitionIndex) :
    Prop where
  resident : ∀ batch ∈ p.resident, ∃ blob, cluster.content topic partition batch = .ok blob
  listed : ∀ key upto, p.manifest = some (key, upto) → ∃ links,
    Published cluster key p.logStart upto links ∧
    ∀ entry ∈ listedBelow upto links, ∃ blob,
      cluster.content topic partition (inlineBatch entry) = .ok blob

def Passing (error : Error) : Prop := error = .slowDown ∨ error = .indexObjectMismatch

theorem Passing.refusalCode_eq {error : Error} (passing : Passing error) :
    Node.refusalCode error = ErrorCode.offsetNotAvailable := by
  rcases passing with rfl | rfl
  · rfl
  · rfl

theorem get_passing {objects : FetchedObjects} (honest : objects.Honest self) {key : ObjectKey}
    {range : ByteRange} {bytes : List UInt8} (there : self.store key range = .ok bytes)
    {error : Error} (h : (objects.get self key range).1.1 = .error error) : Passing error := by
  unfold FetchedObjects.get at h
  cases held : objects.seen.lookup (key, range) with
  | some answer =>
    rw [held] at h
    cases (honest key range answer held).symm.trans h ▸ there
  | none =>
    rw [held] at h
    dsimp only at h
    split at h
    · cases h
      exact .inl rfl
    · cases there.symm.trans h

theorem oneBatch_passing {objects : FetchedObjects} (honest : objects.Honest self)
    {batch : IndexedBatch} {blob : List UInt8}
    (there : self.content topic partition batch = .ok blob) {error : Error}
    (h : (self.oneBatch topic partition objects batch).1.blob = .error error) : Passing error := by
  cases batch with
  | inline entry =>
    unfold oneBatch at h
    dsimp only at h
    split at h
    · cases h
    · rename_i hget
      cases h
      exact @get_passing self objects honest entry.reference.object entry.bytes blob there _
        (by rw [hget])
  | footer object =>
    obtain ⟨whole, stored, sliced⟩ := bind_eq_ok.mp there
    have fetched := honest.get object.object .full
    unfold oneBatch at h
    dsimp only at h
    split at h
    · rename_i hget
      cases h
      exact get_passing honest stored (by rw [hget])
    · rename_i whole' missed objects' hget
      rw [hget] at fetched
      cases stored.symm.trans (fetched.2 _ rfl)
      rw [sliced] at h
      cases h

theorem readPage_passing {page : List IndexedBatch}
    (there : ∀ batch ∈ page, ∃ blob, self.content topic partition batch = .ok blob)
    {served : List (IndexedBatch × List UInt8)} {fetched : Nat} {objects : FetchedObjects}
    (honest : objects.Honest self) {failure : ReadFailure}
    (h : (self.readPage topic partition allowance page served fetched objects).1 =
      .error failure) : Passing failure.error := by
  induction page generalizing served fetched objects with
  | nil => cases h
  | cons batch page ih =>
    obtain ⟨blob, here⟩ := there batch (List.mem_cons_self ..)
    obtain ⟨kept, -⟩ := @oneBatch_honest self topic partition objects honest batch
    unfold readPage at h
    split at h
    · cases h
    · dsimp only at h
      split at h
      · rename_i error herror
        split at h
        · cases h
          exact oneBatch_passing honest here herror
        · cases h
      · split at h
        · cases h
          exact .inr rfl
        · exact ih (fun batch among => there batch (List.mem_cons_of_mem _ among)) kept h

/-- A chain that is there fails a read past the hop limit, or after too many failures. -/
theorem manifestBatches_passing {links : List (ObjectKey × PartitionManifest)}
    (linked : Linked self links) {upto hops cost : Nat} {key : ObjectKey}
    (newest : links.head?.map Prod.fst = some key) {objects : FetchedObjects}
    (honest : objects.Honest self) {error : Error}
    {depth position : Nat} {manifest : PartitionManifest}
    (holds : Holds links start depth manifest position)
    (h : (self.manifestBatches start upto hops key cost objects).1.batches = .error error) :
    Passing error := by
  induction hops generalizing links key cost objects depth with
  | zero =>
    cases h
    exact .inr rfl
  | succ hops ih =>
    cases links with
    | nil => simp at newest
    | cons link rest =>
      obtain rfl : link.1 = key := by simpa using newest
      obtain ⟨stored, hstored, parsed⟩ := linked.stored link (List.mem_cons_self ..)
      have fetched := honest.get link.1 .full
      unfold manifestBatches at h
      split at h
      · rename_i hget
        cases h
        exact get_passing honest hstored (by rw [hget])
      · rename_i bytes missed objects' hget
        rw [hget] at fetched
        cases hstored.symm.trans (fetched.2 _ rfl)
        simp only [parsed] at h
        cases depth with
        | zero =>
          obtain rfl : link.2 = manifest := by simpa using holds.link
          simp only [holds.found] at h
          cases h
        | succ depth =>
          obtain ⟨missed', previous, hprevious, hfilter⟩ := holds.next linked
          simp only [missed', hfilter] at h
          exact ih linked.tail hprevious fetched.1 holds.tail h

theorem pageOf_listed {links : List (ObjectKey × PartitionManifest)} {upto depth position : Nat}
    {manifest : PartitionManifest} (holds : Holds links start depth manifest position)
    {batch : IndexedBatch} (among : batch ∈ pageOf manifest position upto) :
    ∃ entry ∈ listedBelow upto links, batch = inlineBatch entry := by
  obtain ⟨entry, hentry, rfl⟩ := List.mem_map.mp among
  obtain ⟨link, hlink, rfl⟩ := Option.map_eq_some_iff.mp holds.link
  have listed := List.mem_of_mem_take hentry
  unfold entriesBelow at listed
  have below : entry.baseOffset < upto := by
    simpa using List.mem_takeWhile_imp listed
  have inside : entry ∈ link.2.entries :=
    List.mem_of_mem_drop ((List.takeWhile_prefix _).subset listed)
  exact ⟨entry, mem_listedBelow (List.mem_of_getElem? hlink) inside below, rfl⟩

/-- The manifest tier over objects that are there answers with batches that are there too, or
fails in passing. -/
theorem manifestPage_present (held : self.index.partition (topic, partition) = some p)
    (wf : p.WF) (present : self.Present topic partition p) (started : p.logStart ≤ start)
    {objects : FetchedObjects} (honest : objects.Honest self) :
    (∀ error, (self.manifestPage topic partition start allowance objects).1.batches =
      .error error → Passing error) ∧
    ∀ batches, (self.manifestPage topic partition start allowance objects).1.batches =
      .ok batches → ∀ batch ∈ batches, ∃ blob, self.content topic partition batch = .ok blob := by
  have nothing : ∀ batches : List IndexedBatch, Except.ok (ε := Error) [] = .ok batches →
      ∀ batch ∈ batches, ∃ blob, self.content topic partition batch = .ok blob := by
    intro batches same batch among
    cases same
    cases among
  unfold manifestPage
  rw [manifest_eq held]
  cases named : p.manifest with
  | none => exact ⟨(fun error h => by cases h), nothing⟩
  | some covering =>
    obtain ⟨key, upto⟩ := covering
    dsimp only
    split
    · rename_i used
      obtain ⟨links, published, there⟩ := present.listed key upto named
      obtain ⟨depth, manifest, position, holds, -⟩ :=
        exists_holder wf named published started used.1
      refine ⟨fun error h => manifestBatches_passing published.linked published.newest honest
        holds h, ?_⟩
      intro batches h batch among
      obtain ⟨-, answered⟩ := @manifestBatches_ok self links published.linked start upto depth
        position manifest holds maxManifestHops 0 key objects published.newest honest
      obtain ⟨-, rfl⟩ := answered _ h
      obtain ⟨entry, listed, rfl⟩ := pageOf_listed holds among
      exact there entry listed
    · exact ⟨(fun error h => by cases h), nothing⟩

end Cluster

namespace Node

variable {self : Node} {index : IndexState}

/-- Whether a consumer that is told an offset as a partition's earliest can go on from it: no
fetch from there is out of range, whatever it may spend and has read already, and one that is
answered reports the same log start. -/
def Recovers (self : Node) (index : IndexState) (name : String) (at_ offset : Int) : Prop :=
  ∀ unknown partitionMaxBytes allowance objects, objects.Honest (self.cluster index) →
    let outcome := (self.onePartition (.still index) (some name) unknown
      ⟨at_, offset, partitionMaxBytes⟩ allowance objects).1
    outcome.errorCode ≠ ErrorCode.offsetOutOfRange ∧
      (outcome.errorCode = ErrorCode.none → outcome.logStartOffset = offset)

/-- An index from which an offset can be read: if it knows the partition, its log starts there
or before, and its objects are there. -/
def Serves (self : Node) (index : IndexState) (topic : TopicId) (partition start : Nat) : Prop :=
  ∀ p, index.partition (topic, partition) = some p →
    p.WF ∧ (self.cluster index).Present topic partition p ∧ p.logStart ≤ start

theorem manifestPage_serves {topic : TopicId} {partition start : Nat}
    (serves : self.Serves index topic partition start) {allowance : Allowance}
    {objects : FetchedObjects} (honest : objects.Honest (self.cluster index)) :
    (∀ error, ((self.cluster index).manifestPage topic partition start allowance
      objects).1.batches = .error error → Cluster.Passing error) ∧
    ∀ batches, ((self.cluster index).manifestPage topic partition start allowance
      objects).1.batches = .ok batches → ∀ batch ∈ batches, ∃ blob,
        (self.cluster index).content topic partition batch = .ok blob := by
  cases held : index.partition (topic, partition) with
  | none =>
    have unnamed : (self.cluster index).index.manifest (topic, partition) = none := by
      change (index.partition (topic, partition)).bind PartitionIndex.manifest = none
      rw [held]
      rfl
    unfold Cluster.manifestPage
    rw [unnamed]
    refine ⟨fun error h => (by cases h), fun batches h batch among => ?_⟩
    cases h
    cases among
  | some p =>
    obtain ⟨wf, present, started⟩ := serves p held
    exact @Cluster.manifestPage_present (self.cluster index) topic partition start p allowance held
      wf present started objects honest

theorem findBatches_serves {topic : TopicId} {partition start : Nat}
    (serves : self.Serves index topic partition start) (maxBytes : Nat) :
    ∃ batches, index.findBatches (topic, partition) start maxBytes = .ok batches ∧
      ∀ batch ∈ batches, ∃ blob, (self.cluster index).content topic partition batch = .ok blob := by
  cases held : index.partition (topic, partition) with
  | none =>
    refine ⟨[], ?_, fun batch among => by cases among⟩
    unfold IndexState.findBatches
    rw [held]
  | some p =>
    obtain ⟨wf, present, started⟩ := serves p held
    obtain ⟨batches, rest, found, named, -⟩ := @Cluster.findBatches_spec (self.cluster index) topic
      partition start p held wf started maxBytes
    refine ⟨batches, found, ?_⟩
    intro batch among
    have inside : batch ∈ p.resident.filter fun b => decide (start < b.reference.stop) := by
      rw [named]
      exact List.mem_append_left _ among
    exact present.resident batch (List.mem_of_mem_filter inside)

/-- From the log start on, a read over objects that are there fails in passing only, though the
index moves under it. -/
theorem readAcross_passing {moments : Moments} {topic : TopicId} {partition start : Nat}
    (manifest : self.Serves moments.manifest topic partition start)
    (finding : self.Serves moments.finding topic partition start) {allowance : Allowance}
    {objects : FetchedObjects} (honest : objects.Honest (self.cluster moments.manifest))
    {failure : ReadFailure}
    (h : (self.readAcross moments topic partition start allowance objects).1 =
      .error failure) : Cluster.Passing failure.error := by
  obtain ⟨passing, there⟩ := @manifestPage_serves self moments.manifest topic partition start
    manifest allowance objects honest
  obtain ⟨batches, found, here⟩ := findBatches_serves finding allowance.bytes
  unfold readAcross at h
  dsimp only at h
  split at h
  · rename_i error refused_
    cases h
    exact passing _ refused_
  · rename_i fromManifest answered
    rw [found] at h
    refine @Cluster.readPage_passing (self.cluster moments.finding) _ _ _ _ ?_ _ _ _
      (@Cluster.manifestPage_honest (self.cluster moments.manifest) _ _ _ _ _ honest) _ h
    intro batch among
    rcases List.mem_append.mp among with among | among
    · exact there _ answered batch among
    · exact here batch among

/-- A read from below the log start with nothing to spend is refused for it. -/
theorem readAcross_trimmed (self : Node) {topic : TopicId} {partition start : Nat}
    (trimmed : start < index.logStart (topic, partition)) (objects : FetchedObjects) :
    (self.readAcross (.still index) topic partition start ⟨0, false⟩ objects).1 =
      .error ⟨.belowLogStart start (index.logStart (topic, partition)), 0⟩ := by
  cases held : index.partition (topic, partition) with
  | none => simp [IndexState.logStart, held] at trimmed
  | some p =>
    have same : index.logStart (topic, partition) = p.logStart := by
      unfold IndexState.logStart
      rw [held]
      rfl
    rw [same] at trimmed ⊢
    have passed : (self.cluster index).manifestPage topic partition start ⟨0, false⟩ objects =
        (⟨.ok [], 0⟩, objects) := by
      unfold Cluster.manifestPage
      split
      · rw [if_neg (by simp)]
      · rfl
    have found : index.findBatches (topic, partition) start 0 =
        .error (.belowLogStart start p.logStart) := by
      rw [IndexState.findBatches_of_held held]
      exact if_pos trimmed
    unfold readAcross
    dsimp only [Moments.still]
    rw [passed]
    dsimp only
    rw [found]

theorem resolve_inside {name : String} {at_ : Int} {topic : TopicId} {partition offset : Nat}
    (hosted : self.hosts name at_ = true) (topicOf : TopicId.new name = .ok topic)
    (partitionOf : PartitionId.new at_ = .ok partition)
    (within : offset ≤ index.endOffset (topic, partition)) (unknown : Int) :
    self.resolve index (some name) unknown at_ offset =
      .ok (topic, partition, (index.endOffset (topic, partition) : Int), offset) := by
  have nonneg : ¬ (offset : Int) < 0 := by omega
  have inside : ¬ index.endOffset (topic, partition) < offset := not_lt.mpr within
  unfold resolve
  simp [hosted, topicOf, partitionOf, Offset.new, nonneg, inside]

theorem resolve_zero {name : String} {at_ : Int} {topic : TopicId} {partition : Nat}
    (hosted : self.hosts name at_ = true) (topicOf : TopicId.new name = .ok topic)
    (partitionOf : PartitionId.new at_ = .ok partition) (unknown : Int) :
    self.resolve index (some name) unknown at_ 0 =
      .ok (topic, partition, (index.endOffset (topic, partition) : Int), 0) :=
  resolve_inside hosted topicOf partitionOf (Nat.zero_le _) unknown

/-- The earliest offset is answered, and a consumer can go on from it, exactly when the
partition has not been trimmed. -/
theorem earliest_recovers_iff (self : Node) {quota : Option IndexQuota}
    {pages : List (List MetadataEntry)} {index : IndexState}
    (folded : pages.foldlM IndexState.apply { quota := quota } = .ok index)
    {name : String} {at_ : Int} {topic : TopicId} {partition : Nat}
    (hosted : self.hosts name at_ = true) (topicOf : TopicId.new name = .ok topic)
    (partitionOf : PartitionId.new at_ = .ok partition)
    (present : ∀ p, index.partition (topic, partition) = some p →
      (self.cluster index).Present topic partition p) (epoch : Nat) :
    (∃ offset, ListOffsets.onePartition index epoch (some topic) (self.hosts name at_) at_
        ListOffsets.earliestTimestamp = ⟨at_, ErrorCode.none, ListOffsets.unset, offset⟩ ∧
      self.Recovers index name at_ offset) ↔ index.logStart (topic, partition) = 0 := by
  have sound := IndexState.Sound.fold (IndexState.Sound.empty quota) folded
  have answer : ListOffsets.onePartition index epoch (some topic) (self.hosts name at_) at_
      ListOffsets.earliestTimestamp = ⟨at_, ErrorCode.none, ListOffsets.unset, 0⟩ := by
    unfold ListOffsets.onePartition
    rw [partitionOf, hosted]
    rfl
  constructor
  · rintro ⟨offset, answered, recovers⟩
    cases answer.symm.trans answered
    by_contra trimmed
    -- With nothing to spend the manifest tier is passed over, and the index refuses.
    refine (recovers ErrorCode.unknownTopicOrPartition 0 ⟨0, false⟩ {}
      (fun _ _ _ seen => by cases seen)).1 ?_
    have refuses := self.readAcross_trimmed (Nat.pos_of_ne_zero trimmed) {}
    unfold onePartition
    dsimp only [Moments.still] at refuses ⊢
    rw [resolve_zero hosted topicOf partitionOf]
    dsimp only
    split <;> rename_i read <;> rw [read] at refuses
    · cases refuses
    · cases refuses
      rfl
  · intro untrimmed
    refine ⟨0, answer, ?_⟩
    intro unknown partitionMaxBytes allowance objects honest
    have serves : self.Serves index topic partition 0 := by
      intro p held
      refine ⟨sound.wf _ _ held, present p held, ?_⟩
      unfold IndexState.logStart at untrimmed
      rw [held] at untrimmed
      exact Nat.le_of_eq untrimmed
    have passing : ∀ failure, (self.readAcross (.still index) topic partition 0 allowance
        objects).1 = .error failure → Cluster.Passing failure.error :=
      fun failure => readAcross_passing serves serves honest
    unfold onePartition
    dsimp only [Moments.still] at passing ⊢
    rw [resolve_zero hosted topicOf partitionOf]
    dsimp only
    split <;> rename_i read <;> rw [read] at passing
    · exact ⟨show ErrorCode.none ≠ ErrorCode.offsetOutOfRange by decide, fun _ => rfl⟩
    · rename_i failure _
      dsimp only
      rw [(passing failure rfl).refusalCode_eq]
      exact ⟨by decide, fun none_ => absurd none_ (by decide)⟩

def fullNode : Node where
  store := fun _ _ => .ok bareHeader
  sliceRegion := fun _ _ whole => .ok whole
  partitionCount := fun _ => some 1
  topicNameById := fun _ => none

theorem present_fullNode (index : IndexState) (topic : TopicId) (partition : Nat)
    {p : PartitionIndex} (unlisted : p.manifest = none) :
    (fullNode.cluster index).Present topic partition p where
  resident := by
    intro batch _
    cases batch with
    | inline entry => exact ⟨bareHeader, rfl⟩
    | footer object => exact ⟨bareHeader, rfl⟩
  listed := by
    intro key upto named
    cases unlisted.symm.trans named

/-- Two commits of one partition. -/
def untrimmedLog : List (List MetadataEntry) :=
  [[⟨0, .batchCommitted ⟨"a"⟩ [⟨⟨"t"⟩, 0, 2, .full, none⟩, ⟨⟨"t"⟩, 0, 3, .full, none⟩] 5⟩]]

theorem earliest_recovers_iff_untrimmed :
    ∃ s, untrimmedLog.foldlM IndexState.apply { quota := none } = .ok s ∧
      fullNode.Recovers s "t" 0 0 := by
  refine ⟨_, rfl, ?_⟩
  obtain ⟨offset, answered, recovers⟩ := (@earliest_recovers_iff fullNode none untrimmedLog _ rfl
    "t" 0 ⟨"t"⟩ 0 (by decide) (by decide) (by decide)
    (fun p held => present_fullNode _ _ _ (by cases held; rfl)) 0).mpr rfl
  cases answered
  exact recovers

/-- After a trim the earliest offset is still answered as zero, and the fetch from there is out
of range and reports no log start; every object is there. -/
theorem earliest_refused : ∃ s p outcome,
    IndexState.trimmedLog.foldlM IndexState.apply { quota := none } = .ok s ∧
    s.partition (⟨"t"⟩, 0) = some p ∧ (fullNode.cluster s).Present ⟨"t"⟩ 0 p ∧
    ListOffsets.onePartition s 0 (some ⟨"t"⟩) true 0 ListOffsets.earliestTimestamp =
      ⟨0, ErrorCode.none, -1, 0⟩ ∧
    (fullNode.readAll s ⟨none, false, []⟩ 11 ⟨1000, [⟨some "t", 0, [⟨0, 0, 1000⟩]⟩]⟩ {}).1 =
      [[outcome]] ∧
    outcome.errorCode = ErrorCode.offsetOutOfRange ∧ outcome.logStartOffset ≠ 0 := by
  refine ⟨_, _, _, rfl, rfl, present_fullNode _ _ _ rfl, by decide +kernel, rfl, rfl, ?_⟩
  exact (by decide : offsetUnset ≠ 0)

end Node

end Oqueue.Broker
