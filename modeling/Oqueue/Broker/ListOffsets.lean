import Oqueue.Broker.Fetch
import Oqueue.Core.Staleness

/-!
# `ListOffsets`

Two timestamps are sentinels, for the earliest offset and for the end; any other is refused.
-/

namespace Oqueue.Broker.ListOffsets

def latestTimestamp : Int := -1
def earliestTimestamp : Int := -2

structure ResponsePartition where
  index : Int
  errorCode : Int
  timestamp : Int
  offset : Int
  deriving DecidableEq, Repr

def unset : Int := -1

def refusedPartition (index errorCode : Int) : ResponsePartition :=
  ⟨index, errorCode, unset, unset⟩

/-- Where the partition ends, when the cache may say so. The cache's own epoch is the current
one: both are the coordinator's. -/
def authoritativeEndOffset (current : IndexState) (epoch : Nat) (topic : TopicId)
    (partition : Nat) : Except Int Int :=
  match (CacheState.mk epoch current.appliedUpto 0).admits .linearizable epoch with
  | .error .authoritative => .ok (current.endOffset (topic, partition))
  | _ => .error ErrorCode.leaderNotAvailable

/-- One partition's answer; the earliest offset is a constant. -/
def onePartition (current : IndexState) (epoch : Nat) (topic : Option TopicId) (hosted : Bool)
    (index timestamp : Int) : ResponsePartition :=
  match topic, PartitionId.new index, hosted with
  | some topic, .ok partition, true =>
    if timestamp = earliestTimestamp then ⟨index, ErrorCode.none, unset, 0⟩
    else if timestamp = latestTimestamp then
      match authoritativeEndOffset current epoch topic partition with
      | .ok offset => ⟨index, ErrorCode.none, unset, offset⟩
      | .error code => refusedPartition index code
    else refusedPartition index ErrorCode.unsupportedVersion
  | _, _, _ => refusedPartition index ErrorCode.unknownTopicOrPartition

theorem authoritativeEndOffset_eq (current : IndexState) (epoch : Nat) (topic : TopicId)
    (partition : Nat) :
    authoritativeEndOffset current epoch topic partition =
      .ok (current.endOffset (topic, partition)) := by
  unfold authoritativeEndOffset
  rw [CacheState.admits_linearizable]

end Oqueue.Broker.ListOffsets
