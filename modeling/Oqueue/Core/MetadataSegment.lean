import Oqueue.Core.Record
import Oqueue.Library.Format

/-!
# The bytes of one metadata-log segment

Every field is written explicitly and big-endian, lengths before what they
count, tags before what they choose. A record the format cannot carry is refused
before anything is written; the decoder refuses whatever it does not fully
understand, trailing bytes included.
-/

namespace Oqueue

open Bytes Checked Reader Format

/-- Writing to a segment, which refuses at the position it has reached. -/
abbrev Put := Write Error Unit

namespace Segment

/-- The ASCII of "OQML". -/
def magic : List UInt8 := [0x4F, 0x51, 0x4D, 0x4C]

def format : Nat := 1

def tagBatch : Nat := 1
def tagManifest : Nat := 2
def tagCompacted : Nat := 3
def tagTrimmed : Nat := 4
def tagEpoch : Nat := 5
def tagRetention : Nat := 6

def utf8 (value : String) : List UInt8 := value.toUTF8.data.toList

def putLen32 (len : Nat) : Put := fun out =>
  if len < 2 ^ 32 then append (toBeBytes 4 len) out
  else .error (.malformedMetadataSegment out.length)

def putStr (value : String) : Put := fun out =>
  if (utf8 value).length < 2 ^ 16 then
    append (toBeBytes 2 (utf8 value).length ++ utf8 value) out
  else .error (.malformedMetadataSegment out.length)

def putSigned (width : Nat) (value : Int) : Put :=
  append (toBeBytes width (castUnsigned (8 * width) value))

def putPartition (topic : TopicId) (partition : Nat) : Put := do
  putStr topic.name
  append (toBeBytes 4 partition)

def putRef (reference : ObjectRef) : Put := do
  putStr reference.object.key
  append (toBeBytes 8 reference.baseOffset)
  append (toBeBytes 4 reference.recordCount)

def putRefs (refs : List ObjectRef) : Put := do
  putLen32 refs.length
  refs.forM putRef

def encodeBytes : ByteRange → Put
  | .full => append (toBeBytes 1 0)
  | .bounded offset length => do
    append (toBeBytes 1 1)
    append (toBeBytes 8 offset)
    append (toBeBytes 8 length)

def encodeProducer : Option ProducerIdentity → Put
  | none => append (toBeBytes 1 0)
  | some producer => do
    append (toBeBytes 1 1)
    append (toBeBytes 8 producer.id)
    append (toBeBytes 2 producer.epoch)
    putSigned 4 producer.sequence

def encodeSpan (span : CommittedSpan) : Put := do
  putPartition span.topic span.partition
  append (toBeBytes 4 span.recordCount)
  encodeBytes span.bytes
  encodeProducer span.producer

def encodeRetention : Option Int → Put
  | none => append (toBeBytes 1 0)
  | some value => do
    append (toBeBytes 1 1)
    putSigned 8 value

def encodeRecord : MetadataRecord → Put
  | .batchCommitted object spans writtenAt => do
    append (toBeBytes 1 tagBatch)
    putStr object.key
    append (toBeBytes 8 writtenAt)
    putLen32 spans.length
    spans.forM encodeSpan
  | .manifestPublished topic partition manifest upto => do
    append (toBeBytes 1 tagManifest)
    putPartition topic partition
    putStr manifest.key
    append (toBeBytes 8 upto)
  | .rangeCompacted topic partition retiring installing => do
    append (toBeBytes 1 tagCompacted)
    putPartition topic partition
    putRefs retiring
    putRefs installing
  | .trimmed topic partition start => do
    append (toBeBytes 1 tagTrimmed)
    putPartition topic partition
    append (toBeBytes 8 start)
  | .epochChanged epoch => do
    append (toBeBytes 1 tagEpoch)
    append (toBeBytes 8 epoch)
  | .topicRetentionChanged topic retentionMs => do
    append (toBeBytes 1 tagRetention)
    putStr topic.name
    encodeRetention retentionMs

def encodeEntry (entry : MetadataEntry) : Put := do
  append (toBeBytes 8 entry.version)
  encodeRecord entry.record

def putSegment (entries : List MetadataEntry) : Put := do
  append magic
  append (toBeBytes 1 format)
  putLen32 entries.length
  entries.forM encodeEntry

def malformed (_ : Nat) (cur : Cursor) : Error := .malformedMetadataSegment cur.pos

def refuse {α : Type} : Read Error α := do throw (.malformedMetadataSegment (← get).pos)

/-- A constructor's refusal, reported as a malformed segment here. -/
def checked {α : Type} (value : Except Error α) : Read Error α := do
  let cur ← get
  liftM (value.mapError fun _ => Error.malformedMetadataSegment cur.pos)

def u8 : Read Error Nat := unsigned malformed 1
def u32 : Read Error Nat := unsigned malformed 4
def u64 : Read Error Nat := unsigned malformed 8
def i64 : Read Error Int := signed malformed 8

def string : Read Error String := do
  let len ← unsigned malformed 2
  let raw ← take malformed len
  match String.fromUTF8? ⟨raw.toArray⟩ with
  | some text => return text
  | none => refuse

def key : Read Error ObjectKey := do
  let raw ← string
  checked (ObjectKey.new raw)

def topic : Read Error TopicId := do
  let raw ← string
  checked (TopicId.new raw)

def offset : Read Error Nat := do
  let raw ← i64
  checked (Offset.new raw)

def partition : Read Error (TopicId × Nat) := do
  let raw ← string
  let topic ← checked (TopicId.new raw)
  let index ← signed malformed 4
  let partition ← checked (PartitionId.new index)
  return (topic, partition)

def ref : Read Error ObjectRef := do
  let object ← key
  let base ← offset
  let records ← u32
  return ⟨object, base, records⟩

def refs : Read Error (List ObjectRef) := do
  let count ← u32
  readMany ref count

def decodeBytes : Read Error ByteRange := do
  match ← u8 with
  | 0 => return .full
  | 1 =>
    let offset ← u64
    let length ← u64
    checked (ByteRange.new offset length)
  | _ => refuse

def decodeProducer : Read Error (Option ProducerIdentity) := do
  match ← u8 with
  | 0 => return none
  | 1 =>
    let rawId ← i64
    let id ← checked (ProducerId.new rawId)
    let rawEpoch ← signed malformed 2
    let epoch ← checked (ProducerEpoch.new rawEpoch)
    let sequence ← signed malformed 4
    return some ⟨id, epoch, sequence⟩
  | _ => refuse

def decodeSpan : Read Error CommittedSpan := do
  let (topic, partition) ← partition
  let records ← u32
  let bytes ← decodeBytes
  let producer ← decodeProducer
  return ⟨topic, partition, records, bytes, producer⟩

def decodeBatch : Read Error MetadataRecord := do
  let object ← key
  let millis ← i64
  let writtenAt ← checked (Timestamp.fromMillis millis)
  let count ← u32
  let spans ← readMany decodeSpan count
  return .batchCommitted object spans writtenAt

def decodeManifest : Read Error MetadataRecord := do
  let (topic, partition) ← partition
  let manifest ← key
  let upto ← offset
  return .manifestPublished topic partition manifest upto

def decodeCompacted : Read Error MetadataRecord := do
  let (topic, partition) ← partition
  let retiring ← refs
  let installing ← refs
  return .rangeCompacted topic partition retiring installing

def decodeTrimmed : Read Error MetadataRecord := do
  let (topic, partition) ← partition
  let start ← offset
  return .trimmed topic partition start

def decodeEpoch : Read Error MetadataRecord := do
  let epoch ← u64
  return .epochChanged epoch

def decodeRetentionMs : Read Error (Option Int) := do
  match ← u8 with
  | 0 => return none
  | 1 =>
    let value ← i64
    return some value
  | _ => refuse

def decodeRetention : Read Error MetadataRecord := do
  let topic ← topic
  let retentionMs ← decodeRetentionMs
  return .topicRetentionChanged topic retentionMs

def decodeRecord : Read Error MetadataRecord := do
  let cur ← get
  match ← u8 with
  | 1 => decodeBatch
  | 2 => decodeManifest
  | 3 => decodeCompacted
  | 4 => decodeTrimmed
  | 5 => decodeEpoch
  | 6 => decodeRetention
  | _ => throw (.malformedMetadataSegment cur.pos)

def decodeEntry : Read Error MetadataEntry := do
  let version ← u64
  let record ← decodeRecord
  return ⟨version, record⟩

def readSegment : Read Error (List MetadataEntry) := do
  let head ← take malformed 4
  if head ≠ magic then refuse
  else
    let version ← u8
    if version ≠ format then refuse
    else
      let count ← u32
      readMany decodeEntry count

end Segment

open Segment

/-- Encodes the entries one append carries. -/
def encodeSegment (entries : List MetadataEntry) : Except Error (List UInt8) := do
  let ((), out) ← (putSegment entries).run []
  return out

def decodeSegment (bytes : List UInt8) : Except Error (List MetadataEntry) := do
  let (entries, cur) ← readSegment.run ⟨bytes, 0⟩
  if cur.pos ≠ bytes.length then .error (.malformedMetadataSegment cur.pos) else return entries

end Oqueue
