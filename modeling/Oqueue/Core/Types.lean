import Oqueue.Library.Checked

/-!
# Identities, offsets, versions and refusals

Offsets, versions, partitions, producer identities and times are naturals; the width
of the source's integers shows in the checked additions, which refuse instead of
wrapping.
-/

namespace Oqueue

structure TopicId where
  name : String
  deriving DecidableEq, Repr

structure ObjectKey where
  key : String
  deriving DecidableEq, Repr

abbrev PartitionKey := TopicId × Nat

/-- The greatest offset the protocol's `int64` holds. -/
def i64Max : Nat := 2 ^ 63 - 1

/-- The greatest version a `u64` holds. -/
def u64Max : Nat := 2 ^ 64 - 1

/-- The greatest record count a `u32` holds. -/
def u32Max : Nat := 2 ^ 32 - 1

def saturatingAdd (a b : Nat) : Nat := min (a + b) u64Max

inductive Error where
  | negativeOffset (got : Int)
  | negativeOffsetDelta (got : Int)
  | offsetOverflow (base delta : Nat)
  | commitVersionOverflow (base delta : Nat)
  | nonMonotonicCommitVersion (expectedAbove got : Nat)
  | emptySpanInLog (topic : String) (partition : Nat) (object : String)
  | manifestDoesNotMeetHistory (topic : String) (partition upto expected : Nat)
  | trimPastEnd (topic : String) (partition start stop : Nat)
  | swapRefused (topic : String) (partition : Nat) (because : String)
  | indexQuotaExceeded (topic : String) (partition wouldBe ceiling : Nat)
  | invalidIndexQuota (ceiling alarmAt : Nat)
  | indexObjectMismatch
  | belowLogStart (requested logStart : Nat)
  | objectNotFound (key : ObjectKey)
  | preconditionFailed (key : String)
  | malformedMetadataSegment (at_ : Nat)
  | gcInequalityViolated (delayMs boundMs : Int)
  | emptyTopicId
  | negativePartitionId (got : Int)
  | negativeTimestamp (got : Int)
  | negativeProducerId (got : Int)
  | negativeProducerEpoch (got : Int)
  | emptyObjectKey
  | emptyByteRange
  | emptyBundle
  | bundleTooLarge
  | unboundedRegion
  | unknownBundleFormat (version : Nat)
  | malformedBundleFooter (at_ : Nat)
  | bundleTailTooShort (got needed : Nat)
  | bundleSequenceExhausted
  | unknownRegionAlg (code : Nat)
  | emptyRegion
  | regionNotEncrypted
  | regionEnvelopeMismatch (isSealed : Bool)
  | regionEnvelopeLength (field : String) (got : Nat)
  | regionKeyDomainMismatch (expectedSealed : Bool)
  | emptyKeyId
  | emptyGroupId
  | emptyPrincipal
  | topicNameReserved
  | overlappingCompactionPlans
  | compactionRoundTooLarge (records budget : Int)
  | invalidKeyId (reason : String)
  | malformedWriterId
  | keyRevoked
  | nonceWriterEpochOutOfRange (got : Nat)
  | nonceObjectSequenceOutOfRange (got : Nat)
  | nonceRegionOutOfRange (got : Nat)
  | nonceRegionOutOfOrder (expected got : Nat)
  | byteRangeOutOfBounds (key : ObjectKey) (offset length objectSize : Nat)
  | chunkLengthTooLarge (length chunkSize : Nat)
  | illegalGroupTransition (state event : String)
  | malformedPartitionManifest (at_ : Nat)
  | notAPartitionManifest
  | unknownPartitionManifestVersion (version : Nat)
  | malformedCompositeManifest (at_ : Nat)
  | notACompositeManifest
  | unknownCompositeVersion (version : Nat)
  | sealedRegionNotRepresentable (context : String)
  | slowDown
  | permanent
  | transient
  deriving DecidableEq, Repr

def TopicId.new (name : String) : Except Error TopicId :=
  if name.isEmpty then .error .emptyTopicId else .ok ⟨name⟩

def ObjectKey.new (key : String) : Except Error ObjectKey :=
  if key.isEmpty then .error .emptyObjectKey else .ok ⟨key⟩

def PartitionId.new (index : Int) : Except Error Nat :=
  if index < 0 then .error (.negativePartitionId index) else .ok index.toNat

def Offset.new (value : Int) : Except Error Nat :=
  if value < 0 then .error (.negativeOffset value) else .ok value.toNat

def Timestamp.fromMillis (millis : Int) : Except Error Nat :=
  if millis < 0 then .error (.negativeTimestamp millis) else .ok millis.toNat

def ProducerId.new (value : Int) : Except Error Nat :=
  if value < 0 then .error (.negativeProducerId value) else .ok value.toNat

def ProducerEpoch.new (value : Int) : Except Error Nat :=
  if value < 0 then .error (.negativeProducerEpoch value) else .ok value.toNat

/-- Advances an offset, refusing to leave the `i64` range or to move backwards. -/
def Offset.add (self : Nat) (delta : Int) : Except Error Nat :=
  if delta < 0 then .error (.negativeOffsetDelta delta)
  else if self + delta.toNat ≤ i64Max then .ok (self + delta.toNat)
  else .error (.offsetOverflow self delta.toNat)

theorem Offset.add_natCast (o : Nat) (n : Nat) :
    Offset.add o n = if o + n ≤ i64Max then .ok (o + n) else .error (.offsetOverflow o n) := by
  unfold Offset.add
  simp

theorem Offset.add_eq_ok {o : Nat} {n : Nat} {r : Nat} :
    Offset.add o n = .ok r ↔ r = o + n ∧ o + n ≤ i64Max := by
  rw [Offset.add_natCast]
  split <;> simp_all [eq_comm]

def CommitVersion.advance (self : Nat) (delta : Nat) : Except Error Nat :=
  if self + delta ≤ u64Max then .ok (self + delta)
  else .error (.commitVersionOverflow self delta)

theorem CommitVersion.advance_eq_ok {v : Nat} {n : Nat} {r : Nat} :
    CommitVersion.advance v n = .ok r ↔ r = v + n ∧ v + n ≤ u64Max := by
  unfold CommitVersion.advance
  split <;> simp_all [eq_comm]

/-- The oldest and newest commit that put records into a partition. -/
structure TimeSpan where
  min : Nat
  max : Nat
  deriving DecidableEq, Repr

namespace TimeSpan

def at_ (when : Nat) : TimeSpan := ⟨when, when⟩

def widened (self other : TimeSpan) : TimeSpan :=
  ⟨Min.min self.min other.min, Max.max self.max other.max⟩

theorem widened_assoc (a b c : TimeSpan) :
    (a.widened b).widened c = a.widened (b.widened c) := by
  simp [widened, Nat.min_assoc, Nat.max_assoc]

@[simp] theorem widened_self (a : TimeSpan) : a.widened a = a := by
  simp [widened]

end TimeSpan

/-- Where inside an object to read; a bounded range is never empty. -/
inductive ByteRange where
  | full
  | bounded (offset length : Nat)
  deriving DecidableEq, Repr

def ByteRange.new (offset length : Nat) : Except Error ByteRange :=
  if length = 0 then .error .emptyByteRange else .ok (.bounded offset length)

end Oqueue
