import Oqueue.Broker.Earliest
import Oqueue.Coordinator.IndexSteps

/-!
# Whether offset answers are true of the log

A handler answers out of the serving index, at whatever step of the coordinator's loop it finds
it. What it answers is true of the acknowledged log as long as the index holds that log each
time the handler looks; an index that was emptied answers as if the partition were empty.
-/

namespace Oqueue.Broker

open Checked

namespace Node

variable {self : Node}

/-- A fetch of an offset that each of the indexes it finds can be read from is answered with
records up to the end it found first, or with an error that is retried from the same offset. -/
theorem onePartition_inside {moments : Moments} {name : String} {at_ : Int} {topic : TopicId}
    {partition offset : Nat} (hosted : self.hosts name at_ = true)
    (topicOf : TopicId.new name = .ok topic) (partitionOf : PartitionId.new at_ = .ok partition)
    (within : offset ≤ moments.resolving.endOffset (topic, partition))
    (manifest : self.Serves moments.manifest topic partition offset)
    (finding : self.Serves moments.finding topic partition offset) (unknown : Int)
    (partitionMaxBytes : Int) (allowance : Allowance) {objects : FetchedObjects}
    (honest : objects.Honest (self.cluster moments.manifest)) :
    let outcome := (self.onePartition moments (some name) unknown ⟨at_, offset, partitionMaxBytes⟩
      allowance objects).1
    outcome.highWatermark = moments.resolving.endOffset (topic, partition) ∧
      (outcome.errorCode = ErrorCode.none ∨ outcome.errorCode = ErrorCode.offsetNotAvailable) := by
  have passing : ∀ failure, (self.readAcross moments topic partition offset allowance
      objects).1 = .error failure → Cluster.Passing failure.error :=
    fun failure => readAcross_passing manifest finding honest
  unfold onePartition
  dsimp only
  rw [resolve_inside hosted topicOf partitionOf within]
  dsimp only
  split <;> rename_i read <;> rw [read] at passing
  · exact ⟨rfl, .inl rfl⟩
  · rename_i failure _
    exact ⟨rfl, .inr (passing failure rfl).refusalCode_eq⟩

/-- The index holds what a handler was promised when it began: all that was acknowledged by
then, and no log start moved past the offset it asks for. -/
theorem serves_of_covers {turns : IndexTurns} (inv : turns.Inv) {entries : List MetadataEntry}
    (acked : entries <+: turns.line) (covers : turns.Covers entries) {truth : IndexState}
    (folded : IndexState.new.apply entries = .ok truth) {topic : TopicId} {partition offset : Nat}
    (started : truth.logStart (topic, partition) ≤ offset)
    (keeps : ∀ entry ∈ turns.line.drop entries.length,
      ¬ entry.record.TrimsPast (topic, partition) offset)
    (present : ∀ p, turns.cell.index.partition (topic, partition) = some p →
      (self.cluster turns.cell.index).Present topic partition p) :
    self.Serves turns.cell.index topic partition offset := by
  intro p held
  have starts := (inv.reaches acked covers folded (topic, partition)).2 offset started keeps
  unfold IndexState.logStart at starts
  rw [held] at starts
  exact ⟨inv.following.follows.sound.wf _ _ held, present p held, starts⟩

/-- Whatever the loop does between a handler's looks at the index: if the index holds, each
time, every entry that was acknowledged before the handler began, a fetch from inside the
partition is not out of range and reports no end below the acknowledged one, and neither does
the end that is listed. -/
theorem answers_truthful (self : Node) {line : List MetadataEntry} {quota : Option IndexQuota}
    (ascending : MetadataLog.Ascending line) (before resolving manifest finding : List IndexEvent)
    {began looks₁ looks₂ looks₃ : IndexTurns}
    (began_eq : began = (IndexTurns.openDeferred line quota).run before)
    (looks₁_eq : looks₁ = began.run resolving) (looks₂_eq : looks₂ = looks₁.run manifest)
    (looks₃_eq : looks₃ = looks₂.run finding)
    (covers₁ : looks₁.Covers began.acked) (covers₂ : looks₂.Covers began.acked)
    (covers₃ : looks₃.Covers began.acked) {truth : IndexState}
    (acked : IndexState.new.apply began.acked = .ok truth) {name : String} {at_ : Int}
    {topic : TopicId} {partition offset : Nat} (hosted : self.hosts name at_ = true)
    (topicOf : TopicId.new name = .ok topic) (partitionOf : PartitionId.new at_ = .ok partition)
    (started : truth.logStart (topic, partition) ≤ offset)
    (within : offset ≤ truth.endOffset (topic, partition))
    (keeps : ∀ entry ∈ looks₃.line.drop began.acked.length,
      ¬ entry.record.TrimsPast (topic, partition) offset)
    (present₂ : ∀ p, looks₂.cell.index.partition (topic, partition) = some p →
      (self.cluster looks₂.cell.index).Present topic partition p)
    (present₃ : ∀ p, looks₃.cell.index.partition (topic, partition) = some p →
      (self.cluster looks₃.cell.index).Present topic partition p)
    (unknown partitionMaxBytes : Int) (allowance : Allowance) {objects : FetchedObjects}
    (honest : objects.Honest (self.cluster looks₂.cell.index)) (epoch : Nat) :
    let outcome := (self.onePartition
      ⟨looks₁.cell.index, looks₂.cell.index, looks₃.cell.index⟩ (some name) unknown
      ⟨at_, offset, partitionMaxBytes⟩ allowance objects).1
    let latest := ListOffsets.onePartition looks₁.cell.index epoch (some topic)
      (self.hosts name at_) at_ ListOffsets.latestTimestamp
    (outcome.errorCode = ErrorCode.none ∨ outcome.errorCode = ErrorCode.offsetNotAvailable) ∧
      (truth.endOffset (topic, partition) : Int) ≤ outcome.highWatermark ∧
      latest.errorCode = ErrorCode.none ∧
      (truth.endOffset (topic, partition) : Int) ≤ latest.offset := by
  have inv : began.Inv := by
    rw [began_eq]
    exact (IndexTurns.Inv.openDeferred ascending quota).run before
  have inv₁ : looks₁.Inv := looks₁_eq ▸ inv.run resolving
  have inv₂ : looks₂.Inv := looks₂_eq ▸ inv₁.run manifest
  have inv₃ : looks₃.Inv := looks₃_eq ▸ inv₂.run finding
  have line₁ : began.acked <+: looks₁.line := by
    rw [looks₁_eq]
    exact inv.acked.trans (began.line_run resolving)
  have line₂ : looks₁.line <+: looks₂.line := looks₂_eq ▸ looks₁.line_run manifest
  have line₃ : looks₂.line <+: looks₃.line := looks₃_eq ▸ looks₂.line_run finding
  have keeps₂ : ∀ entry ∈ looks₂.line.drop began.acked.length,
      ¬ entry.record.TrimsPast (topic, partition) offset := by
    intro entry among
    exact keeps entry ((line₃.drop _).subset among)
  have reaches := (inv₁.reaches line₁ covers₁ acked (topic, partition)).1
  have serves₂ := @serves_of_covers self _ inv₂ _ (line₁.trans line₂) covers₂ _ acked _ _ _ started
    keeps₂ present₂
  have serves₃ := @serves_of_covers self _ inv₃ _ ((line₁.trans line₂).trans line₃) covers₃ _ acked
    _ _ _ started keeps present₃
  obtain ⟨high, code⟩ := @onePartition_inside self
    ⟨looks₁.cell.index, looks₂.cell.index, looks₃.cell.index⟩ name at_ topic partition offset hosted
    topicOf partitionOf (within.trans reaches) serves₂ serves₃ unknown partitionMaxBytes allowance
    objects honest
  have latest : ListOffsets.onePartition looks₁.cell.index epoch (some topic)
      (self.hosts name at_) at_ ListOffsets.latestTimestamp =
      ⟨at_, ErrorCode.none, ListOffsets.unset,
        (looks₁.cell.index.endOffset (topic, partition) : Int)⟩ := by
    unfold ListOffsets.onePartition
    rw [partitionOf, hosted]
    dsimp only
    rw [if_neg (by decide), if_pos rfl, ListOffsets.authoritativeEndOffset_eq]
  dsimp only
  rw [latest, high]
  exact ⟨code, Int.ofNat_le.mpr reaches, rfl, Int.ofNat_le.mpr reaches⟩

/-- A log of one acknowledged commit of five records. -/
def fiveRecords : List MetadataEntry :=
  [⟨0, .batchCommitted ⟨"a"⟩ [⟨⟨"t"⟩, 0, 5, .full, none⟩] 5⟩]

def landing : List IndexEvent := [.replays, .read ⟨[], .ok 1⟩, .read ⟨[], .ok 1⟩]

theorem answers_truthful_landed :
    let turns := (IndexTurns.openDeferred fiveRecords none).run landing
    (5 : Int) ≤ (fullNode.onePartition (.still turns.cell.index) (some "t") 3 ⟨0, 2, 100⟩ ⟨100, true⟩
      {}).1.highWatermark := by
  have shape : (((IndexTurns.openDeferred fiveRecords none).run landing).cell.index.partition
      (⟨"t"⟩, 0)).map PartitionIndex.manifest = some none := by decide +kernel
  have unlisted : ∀ p, ((IndexTurns.openDeferred fiveRecords none).run landing).cell.index.partition
      (⟨"t"⟩, 0) = some p → (fullNode.cluster ((IndexTurns.openDeferred fiveRecords none).run
        landing).cell.index).Present ⟨"t"⟩ 0 p := by
    intro p held
    rw [held] at shape
    exact present_fullNode _ _ _ (Option.some.inj shape)
  have covers : ((IndexTurns.openDeferred fiveRecords none).run landing).Covers fiveRecords := by
    intro last among
    cases among
    exact ⟨0, by decide +kernel, Nat.le_refl _⟩
  have truth : ∃ truth, IndexState.new.apply fiveRecords = .ok truth ∧
      truth.logStart (⟨"t"⟩, 0) = 0 ∧ truth.endOffset (⟨"t"⟩, 0) = 5 := ⟨_, rfl, rfl, rfl⟩
  obtain ⟨truth, folded, starts, ends⟩ := truth
  have started : truth.logStart (⟨"t"⟩, 0) ≤ 2 := by omega
  have within : 2 ≤ truth.endOffset (⟨"t"⟩, 0) := by omega
  have honest : ({} : FetchedObjects).Honest (fullNode.cluster
      ((IndexTurns.openDeferred fiveRecords none).run landing).cell.index) :=
    fun _ _ _ seen => by cases seen
  have answers := (answers_truthful fullNode (List.pairwise_singleton _ _) landing [] [] [] rfl rfl
    rfl rfl covers covers covers folded (by decide : fullNode.hosts "t" 0 = true)
    (by decide : TopicId.new "t" = .ok ⟨"t"⟩) (by decide : PartitionId.new 0 = .ok 0)
    started within (by intro entry among; cases among) unlisted unlisted 3 100 ⟨100, true⟩ honest
    0).2.1
  rw [ends] at answers
  exact answers

/-- Until a deferred replay lands, a fetch from inside the acknowledged log is out of range and
the end of the partition is listed as zero; every object is there. -/
theorem answers_from_nothing :
    let turns := IndexTurns.openDeferred fiveRecords none
    (∃ truth, IndexState.new.apply turns.acked = .ok truth ∧
      truth.logStart (⟨"t"⟩, 0) = 0 ∧ truth.endOffset (⟨"t"⟩, 0) = 5) ∧
    (fullNode.onePartition (.still turns.cell.index) (some "t") 3 ⟨0, 2, 100⟩ ⟨100, true⟩
      {}).1.errorCode = ErrorCode.offsetOutOfRange ∧
    ListOffsets.onePartition turns.cell.index 0 (some ⟨"t"⟩) (fullNode.hosts "t" 0) 0
      ListOffsets.latestTimestamp = ⟨0, ErrorCode.none, -1, 0⟩ :=
  ⟨⟨_, rfl, rfl, rfl⟩, by decide +kernel, by decide +kernel⟩

end Node

end Oqueue.Broker
