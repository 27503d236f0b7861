import Oqueue.Core.Types

/-!
# The metadata log's records

One entry of the log is an event. A committed span is a count, never a
position: where its records land is derived by folding the log in order.
-/

namespace Oqueue

/-- Who sent an idempotent produce, at what epoch, and its sequence number. -/
structure ProducerIdentity where
  id : Nat
  epoch : Nat
  sequence : Int
  deriving DecidableEq, Repr

/-- One partition's share of a committed object. -/
structure CommittedSpan where
  topic : TopicId
  partition : Nat
  recordCount : Nat
  bytes : ByteRange
  producer : Option ProducerIdentity
  deriving DecidableEq, Repr

abbrev CommittedSpan.key (span : CommittedSpan) : PartitionKey := (span.topic, span.partition)

/-- One object's contribution to one partition, as the history tier holds it. -/
structure ObjectRef where
  object : ObjectKey
  baseOffset : Nat
  recordCount : Nat
  deriving DecidableEq, Repr

namespace ObjectRef

def endOffset (self : ObjectRef) : Except Error Nat :=
  Offset.add self.baseOffset self.recordCount

def stop (self : ObjectRef) : Nat := self.baseOffset + self.recordCount

theorem endOffset_eq_ok {r : ObjectRef} {o : Nat} :
    r.endOffset = .ok o ↔ o = r.stop ∧ r.stop ≤ i64Max := Offset.add_eq_ok

theorem endOffset_of_le {r : ObjectRef} (h : r.stop ≤ i64Max) : r.endOffset = .ok r.stop :=
  endOffset_eq_ok.mpr ⟨rfl, h⟩

end ObjectRef

/-- A tail entry: the same reference with its byte range inline. -/
structure TailEntry where
  reference : ObjectRef
  bytes : ByteRange
  deriving DecidableEq, Repr

def TailEntry.demote (self : TailEntry) : ObjectRef := self.reference

inductive MetadataRecord where
  | batchCommitted (object : ObjectKey) (spans : List CommittedSpan) (writtenAt : Nat)
  | manifestPublished (topic : TopicId) (partition : Nat) (manifest : ObjectKey)
      (upto : Nat)
  | rangeCompacted (topic : TopicId) (partition : Nat)
      (retiring installing : List ObjectRef)
  | trimmed (topic : TopicId) (partition : Nat) (start : Nat)
  | epochChanged (epoch : Nat)
  | topicRetentionChanged (topic : TopicId) (retentionMs : Option Int)
  deriving DecidableEq, Repr

structure MetadataEntry where
  version : Nat
  record : MetadataRecord
  deriving DecidableEq, Repr

end Oqueue
