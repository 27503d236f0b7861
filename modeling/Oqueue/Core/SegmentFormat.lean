import Oqueue.Core.MetadataSegment

/-!
# Segments are canonical

The bytes of each kind of field and record, what encoding one appends and what
decoding one accepts. The two meet: a segment decodes to a list of entries
exactly when the list encodes to it.
-/

namespace Oqueue

open Bytes Checked Reader Format Segment

def TopicId.Typed (self : TopicId) : Prop := self.name.isEmpty = false

def ObjectKey.Typed (self : ObjectKey) : Prop := self.key.isEmpty = false

def ByteRange.Typed : ByteRange → Prop
  | .full => True
  | .bounded offset length => (offset < 2 ^ 64 ∧ length < 2 ^ 64) ∧ length ≠ 0

structure ProducerIdentity.Typed (self : ProducerIdentity) : Prop where
  id : self.id < 2 ^ 63
  epoch : self.epoch < 2 ^ 15
  sequence : -(2 ^ 31) ≤ self.sequence ∧ self.sequence < 2 ^ 31

structure CommittedSpan.Typed (self : CommittedSpan) : Prop where
  topic : self.topic.Typed
  partition : self.partition < 2 ^ 31
  recordCount : self.recordCount < 2 ^ 32
  bytes : self.bytes.Typed
  producer : ∀ producer, self.producer = some producer → producer.Typed

structure ObjectRef.Typed (self : ObjectRef) : Prop where
  object : self.object.Typed
  baseOffset : self.baseOffset < 2 ^ 63
  recordCount : self.recordCount < 2 ^ 32

/-- Every field of a record holds a value of the source's own type. -/
def MetadataRecord.Typed : MetadataRecord → Prop
  | .batchCommitted object spans writtenAt =>
    object.Typed ∧ writtenAt < 2 ^ 63 ∧ ∀ span ∈ spans, span.Typed
  | .manifestPublished topic partition manifest upto =>
    topic.Typed ∧ partition < 2 ^ 31 ∧ manifest.Typed ∧ upto < 2 ^ 63
  | .rangeCompacted topic partition retiring installing =>
    topic.Typed ∧ partition < 2 ^ 31 ∧ (∀ r ∈ retiring, r.Typed) ∧ ∀ r ∈ installing, r.Typed
  | .trimmed topic partition start => topic.Typed ∧ partition < 2 ^ 31 ∧ start < 2 ^ 63
  | .epochChanged epoch => epoch < 2 ^ 64
  | .topicRetentionChanged topic retentionMs =>
    topic.Typed ∧ ∀ value, retentionMs = some value → -(2 ^ 63) ≤ value ∧ value < 2 ^ 63

def MetadataEntry.Typed (self : MetadataEntry) : Prop :=
  self.version < 2 ^ 64 ∧ self.record.Typed

namespace Segment

def Short (value : String) : Prop := (utf8 value).length < 2 ^ 16

def strImage (value : String) : List UInt8 := toBeBytes 2 (utf8 value).length ++ utf8 value

def partitionImage (topic : TopicId) (partition : Nat) : List UInt8 :=
  strImage topic.name ++ toBeBytes 4 partition

def refImage (r : ObjectRef) : List UInt8 :=
  strImage r.object.key ++ (toBeBytes 8 r.baseOffset ++ toBeBytes 4 r.recordCount)

def refsImage (refs : List ObjectRef) : List UInt8 := toBeBytes 4 refs.length ++ refs.flatMap refImage

def RefsFit (refs : List ObjectRef) : Prop := refs.length < 2 ^ 32 ∧ ∀ r ∈ refs, Short r.object.key

def signedImage (width : Nat) (value : Int) : List UInt8 :=
  toBeBytes width (castUnsigned (8 * width) value)

def bytesImage : ByteRange → List UInt8
  | .full => toBeBytes 1 0
  | .bounded offset length => toBeBytes 1 1 ++ (toBeBytes 8 offset ++ toBeBytes 8 length)

def producerImage : Option ProducerIdentity → List UInt8
  | none => toBeBytes 1 0
  | some producer => toBeBytes 1 1 ++ (toBeBytes 8 producer.id ++
      (toBeBytes 2 producer.epoch ++ signedImage 4 producer.sequence))

def spanImage (span : CommittedSpan) : List UInt8 :=
  partitionImage span.topic span.partition ++ (toBeBytes 4 span.recordCount ++
    (bytesImage span.bytes ++ producerImage span.producer))

def retentionImage : Option Int → List UInt8
  | none => toBeBytes 1 0
  | some value => toBeBytes 1 1 ++ signedImage 8 value

def tagOf : MetadataRecord → Nat
  | .batchCommitted .. => tagBatch
  | .manifestPublished .. => tagManifest
  | .rangeCompacted .. => tagCompacted
  | .trimmed .. => tagTrimmed
  | .epochChanged .. => tagEpoch
  | .topicRetentionChanged .. => tagRetention

def bodyImage : MetadataRecord → List UInt8
  | .batchCommitted object spans writtenAt => strImage object.key ++ (toBeBytes 8 writtenAt ++
      (toBeBytes 4 spans.length ++ spans.flatMap spanImage))
  | .manifestPublished topic partition manifest upto =>
    partitionImage topic partition ++ (strImage manifest.key ++ toBeBytes 8 upto)
  | .rangeCompacted topic partition retiring installing =>
    partitionImage topic partition ++ (refsImage retiring ++ refsImage installing)
  | .trimmed topic partition start => partitionImage topic partition ++ toBeBytes 8 start
  | .epochChanged epoch => toBeBytes 8 epoch
  | .topicRetentionChanged topic retentionMs => strImage topic.name ++ retentionImage retentionMs

def recordImage (record : MetadataRecord) : List UInt8 :=
  toBeBytes 1 (tagOf record) ++ bodyImage record

/-- Every string and list of a record is short enough for its length field. -/
def RecordFits : MetadataRecord → Prop
  | .batchCommitted object spans _ =>
    Short object.key ∧ spans.length < 2 ^ 32 ∧ ∀ span ∈ spans, Short span.topic.name
  | .manifestPublished topic _ manifest _ => Short topic.name ∧ Short manifest.key
  | .rangeCompacted topic _ retiring installing =>
    Short topic.name ∧ RefsFit retiring ∧ RefsFit installing
  | .trimmed topic _ _ => Short topic.name
  | .epochChanged _ => True
  | .topicRetentionChanged topic _ => Short topic.name

def entryImage (entry : MetadataEntry) : List UInt8 :=
  toBeBytes 8 entry.version ++ recordImage entry.record

def segmentImage (entries : List MetadataEntry) : List UInt8 :=
  magic ++ (toBeBytes 1 format ++ (toBeBytes 4 entries.length ++ entries.flatMap entryImage))

def SegmentFits (entries : List MetadataEntry) : Prop :=
  entries.length < 2 ^ 32 ∧ ∀ entry ∈ entries, RecordFits entry.record

theorem writes_len32 (len : Nat) :
    Writes (putLen32 len) fun w => len < 2 ^ 32 ∧ w = toBeBytes 4 len :=
  Writes.guarded _ (Writes.append _)

theorem writes_str (value : String) :
    Writes (putStr value) fun w => Short value ∧ w = strImage value :=
  Writes.guarded _ (Writes.append _)

theorem writes_partition (topic : TopicId) (partition : Nat) :
    Writes (putPartition topic partition) fun w =>
      Short topic.name ∧ w = partitionImage topic partition := by
  refine ((writes_str topic.name).bind (Writes.append _)).congr fun w => ?_
  simp [partitionImage]

theorem writes_ref (r : ObjectRef) :
    Writes (putRef r) fun w => Short r.object.key ∧ w = refImage r := by
  refine ((writes_str r.object.key).bind ((Writes.append _).bind (Writes.append _))).congr
    fun w => ?_
  simp [refImage]

theorem writes_refs (refs : List ObjectRef) :
    Writes (putRefs refs) fun w => RefsFit refs ∧ w = refsImage refs := by
  refine ((writes_len32 refs.length).bind (Writes.each writes_ref refs)).congr fun w => ?_
  simp [refsImage, RefsFit, and_assoc]

theorem writes_bytes (bytes : ByteRange) :
    Writes (encodeBytes bytes) fun w => w = bytesImage bytes := by
  cases bytes with
  | full => exact Writes.append _
  | bounded offset length =>
    refine ((Writes.append _).bind ((Writes.append _).bind (Writes.append _))).congr fun w => ?_
    simp [bytesImage]

theorem writes_producer (producer : Option ProducerIdentity) :
    Writes (encodeProducer producer) fun w => w = producerImage producer := by
  cases producer with
  | none => exact Writes.append _
  | some producer =>
    refine ((Writes.append _).bind ((Writes.append _).bind ((Writes.append _).bind
      (Writes.append _)))).congr fun w => ?_
    simp [producerImage, signedImage]

theorem writes_span (span : CommittedSpan) :
    Writes (encodeSpan span) fun w => Short span.topic.name ∧ w = spanImage span := by
  refine ((writes_partition span.topic span.partition).bind ((Writes.append _).bind
    ((writes_bytes span.bytes).bind (writes_producer span.producer)))).congr fun w => ?_
  simp [spanImage]

theorem writes_retention (retentionMs : Option Int) :
    Writes (encodeRetention retentionMs) fun w => w = retentionImage retentionMs := by
  cases retentionMs with
  | none => exact Writes.append _
  | some value =>
    refine ((Writes.append _).bind (Writes.append _)).congr fun w => ?_
    simp [retentionImage, signedImage]

theorem writes_record (record : MetadataRecord) :
    Writes (encodeRecord record) fun w => RecordFits record ∧ w = recordImage record := by
  cases record with
  | batchCommitted object spans writtenAt =>
    refine ((Writes.append _).bind ((writes_str object.key).bind ((Writes.append _).bind
      ((writes_len32 spans.length).bind (Writes.each writes_span spans))))).congr fun w => ?_
    simp [recordImage, tagOf, bodyImage, RecordFits, and_assoc]
  | manifestPublished topic partition manifest upto =>
    refine ((Writes.append _).bind ((writes_partition topic partition).bind
      ((writes_str manifest.key).bind (Writes.append _)))).congr fun w => ?_
    simp [recordImage, tagOf, bodyImage, RecordFits, and_assoc]
  | rangeCompacted topic partition retiring installing =>
    refine ((Writes.append _).bind ((writes_partition topic partition).bind
      ((writes_refs retiring).bind (writes_refs installing)))).congr fun w => ?_
    simp [recordImage, tagOf, bodyImage, RecordFits, and_assoc]
  | trimmed topic partition start =>
    refine ((Writes.append _).bind ((writes_partition topic partition).bind
      (Writes.append _))).congr fun w => ?_
    simp [recordImage, tagOf, bodyImage, RecordFits]
  | epochChanged epoch =>
    refine ((Writes.append _).bind (Writes.append _)).congr fun w => ?_
    simp [recordImage, tagOf, bodyImage, RecordFits]
  | topicRetentionChanged topic retentionMs =>
    refine ((Writes.append _).bind ((writes_str topic.name).bind
      (writes_retention retentionMs))).congr fun w => ?_
    simp [recordImage, tagOf, bodyImage, RecordFits]

theorem writes_entry (entry : MetadataEntry) :
    Writes (encodeEntry entry) fun w => RecordFits entry.record ∧ w = entryImage entry := by
  refine ((Writes.append _).bind (writes_record entry.record)).congr fun w => ?_
  simp [entryImage]

theorem writes_segment (entries : List MetadataEntry) :
    Writes (putSegment entries) fun w => SegmentFits entries ∧ w = segmentImage entries := by
  refine ((Writes.append _).bind ((Writes.append _).bind ((writes_len32 entries.length).bind
    (Writes.each writes_entry entries)))).congr fun w => ?_
  simp [segmentImage, SegmentFits, and_assoc]

theorem reads_refuse {α : Type} : Reads (refuse : Read Error α) fun _ _ => False :=
  Reads.get_bind fun _ => Reads.throw _

theorem reads_checked {α : Type} (value : Except Error α) :
    Reads (checked value) fun a bytes => value = .ok a ∧ bytes = [] := by
  apply Reads.get_bind
  intro cur
  refine Reads.check.congr fun a bytes => ?_
  rw [accepts_mapError]

theorem fromUTF8?_eq_some {raw : List UInt8} {text : String} :
    String.fromUTF8? ⟨raw.toArray⟩ = some text ↔ raw = utf8 text := by
  unfold String.fromUTF8? utf8
  constructor
  · intro h
    split at h
    · cases h
      rfl
    · cases h
  · rintro rfl
    have same : (⟨text.toUTF8.data.toList.toArray⟩ : ByteArray) = text.toUTF8 := rfl
    simp only [same]
    exact dif_pos text.isValidUTF8

theorem utf8_inj {a b : String} (same : utf8 a = utf8 b) : a = b := by
  have read := fromUTF8?_eq_some.mpr (rfl : utf8 a = utf8 a)
  rw [same, fromUTF8?_eq_some.mpr (rfl : utf8 b = utf8 b)] at read
  exact (Option.some.inj read).symm

/-- So many bytes, as the text they are the UTF-8 of. -/
theorem reads_utf8 (malformed : Nat → Cursor → Error) (refused : Error) (len : Nat) :
    Reads (do
      let raw ← take malformed len
      match String.fromUTF8? ⟨raw.toArray⟩ with
      | some text => return text
      | none => throw refused) fun text bytes => (utf8 text).length = len ∧ bytes = utf8 text := by
  have body (raw : List UInt8) : Reads (match String.fromUTF8? ⟨raw.toArray⟩ with
      | some text => pure text
      | none => throw refused : Read Error String) fun text bytes =>
        raw = utf8 text ∧ bytes = [] := by
    cases h : String.fromUTF8? ⟨raw.toArray⟩ with
    | some found =>
      refine (Reads.pure found).congr fun text bytes => ?_
      rw [← fromUTF8?_eq_some, h, Option.some.injEq, eq_comm]
    | none =>
      refine (Reads.throw _).congr fun text bytes => ?_
      rw [← fromUTF8?_eq_some, h]
      simp
  refine ((Reads.take malformed len).bind body).congr fun text bytes => ?_
  constructor
  · rintro ⟨_, _, _, ⟨length, rfl⟩, ⟨rfl, rfl⟩, rfl⟩
    exact ⟨length, List.append_nil _⟩
  · rintro ⟨length, rfl⟩
    exact ⟨_, _, _, ⟨length, rfl⟩, ⟨rfl, rfl⟩, (List.append_nil _).symm⟩

theorem reads_string : Reads string fun text bytes => Short text ∧ bytes = strImage text := by
  have body : ∀ raw : List UInt8, Reads (match String.fromUTF8? ⟨raw.toArray⟩ with
      | some text => pure text
      | none => refuse : Read Error String) fun text bytes => raw = utf8 text ∧ bytes = [] := by
    intro raw
    cases h : String.fromUTF8? ⟨raw.toArray⟩ with
    | some found =>
      refine (Reads.pure found).congr fun text bytes => ?_
      rw [← fromUTF8?_eq_some, h, Option.some.injEq, eq_comm]
    | none =>
      refine reads_refuse.congr fun text bytes => ?_
      rw [← fromUTF8?_eq_some, h]
      simp
  refine ((Reads.unsigned malformed 2).bind fun len => (Reads.take malformed len).bind body).congr
    fun text bytes => ?_
  simp [strImage, Short]

theorem reads_key : Reads key fun object bytes =>
    (object.Typed ∧ Short object.key) ∧ bytes = strImage object.key := by
  refine (reads_string.bind fun raw => reads_checked (ObjectKey.new raw)).congr
    fun object bytes => ?_
  obtain ⟨name⟩ := object
  simp only [ObjectKey.new, ObjectKey.Typed]
  constructor
  · rintro ⟨raw, _, _, ⟨short, rfl⟩, ⟨made, rfl⟩, rfl⟩
    split at made
    · cases made
    · rename_i nonempty
      cases made
      exact ⟨⟨by simpa using nonempty, short⟩, List.append_nil _⟩
  · rintro ⟨⟨nonempty, short⟩, rfl⟩
    exact ⟨name, _, _, ⟨short, rfl⟩, ⟨by simp [nonempty], rfl⟩, (List.append_nil _).symm⟩

theorem reads_topic : Reads topic fun topic bytes =>
    (topic.Typed ∧ Short topic.name) ∧ bytes = strImage topic.name := by
  refine (reads_string.bind fun raw => reads_checked (TopicId.new raw)).congr
    fun topic bytes => ?_
  obtain ⟨name⟩ := topic
  simp only [TopicId.new, TopicId.Typed]
  constructor
  · rintro ⟨raw, _, _, ⟨short, rfl⟩, ⟨made, rfl⟩, rfl⟩
    split at made
    · cases made
    · rename_i nonempty
      cases made
      exact ⟨⟨by simpa using nonempty, short⟩, List.append_nil _⟩
  · rintro ⟨⟨nonempty, short⟩, rfl⟩
    exact ⟨name, _, _, ⟨short, rfl⟩, ⟨by simp [nonempty], rfl⟩, (List.append_nil _).symm⟩

/-- A signed field whose constructor refuses what is below zero. -/
theorem reads_constructed {lift : Except Error Nat → Read Error Nat}
    (lifts : ∀ value, Reads (lift value) fun a bytes => value = .ok a ∧ bytes = [])
    (malformed : Nat → Cursor → Error) {make : Int → Except Error Nat} {refused : Int → Error}
    (constructed : ∀ raw, make raw = if raw < 0 then .error (refused raw) else .ok raw.toNat)
    {width : Nat} (positive : 0 < width) :
    Reads (signed malformed width >>= fun raw => lift (make raw)) fun value bytes =>
      value < 2 ^ (8 * width - 1) ∧ bytes = toBeBytes width value := by
  have power : (2 : Nat) ^ (8 * width - 1) ≤ 2 ^ (8 * width) :=
    Nat.pow_le_pow_right (by decide) (by omega)
  refine ((Reads.signed malformed positive).bind fun raw => lifts (make raw)).congr
    fun value bytes => ?_
  simp only [constructed]
  constructor
  · rintro ⟨raw, _, _, ⟨⟨-, high⟩, rfl⟩, ⟨made, rfl⟩, rfl⟩
    split at made
    · cases made
    · rename_i nonnegative
      cases made
      have whole : ((raw.toNat : Nat) : Int) = raw := Int.toNat_of_nonneg (Int.not_lt.mp nonnegative)
      have small : raw.toNat < 2 ^ (8 * width - 1) := by
        zify
        rw [whole]
        exact high
      rw [← whole, castUnsigned_natCast (lt_of_lt_of_le small power), List.append_nil]
      exact ⟨small, rfl⟩
  · rintro ⟨small, rfl⟩
    refine ⟨(value : Int), _, _, ⟨⟨?_, by exact_mod_cast small⟩, rfl⟩, ⟨?_, rfl⟩, ?_⟩
    · have : (0 : Int) ≤ 2 ^ (8 * width - 1) := by positivity
      omega
    · simp
    · rw [castUnsigned_natCast (lt_of_lt_of_le small power), List.append_nil]

theorem reads_nonnegative {make : Int → Except Error Nat} {refused : Int → Error}
    (constructed : ∀ raw, make raw = if raw < 0 then .error (refused raw) else .ok raw.toNat)
    {width : Nat} (positive : 0 < width) :
    Reads (signed malformed width >>= fun raw => checked (make raw)) fun value bytes =>
      value < 2 ^ (8 * width - 1) ∧ bytes = toBeBytes width value :=
  reads_constructed reads_checked malformed constructed positive

theorem reads_offset : Reads offset fun value bytes =>
    value < 2 ^ 63 ∧ bytes = toBeBytes 8 value :=
  reads_nonnegative (fun _ => rfl) (by decide)

theorem Reads.reassoc {α β γ : Type} {read : Read Error α} {f : α → Read Error β}
    {g : β → Read Error γ} {F : γ → List UInt8 → Prop} (h : Reads (read >>= f >>= g) F) :
    Reads (read >>= fun a => f a >>= g) F := by
  rwa [bind_assoc] at h

theorem reads_partition : Reads partition fun key bytes =>
    (key.1.Typed ∧ key.2 < 2 ^ 31 ∧ Short key.1.name) ∧ bytes = partitionImage key.1 key.2 := by
  have index : Reads (signed malformed 4 >>= fun raw => checked (PartitionId.new raw))
      fun value bytes => value < 2 ^ 31 ∧ bytes = toBeBytes 4 value :=
    reads_nonnegative (fun _ => rfl) (by decide)
  refine (Reads.reassoc (reads_topic.bind fun topic => Reads.reassoc (index.bind fun partition =>
    Reads.pure (topic, partition)))).congr fun key bytes => ?_
  obtain ⟨topic, partition⟩ := key
  simp [partitionImage, and_assoc, and_left_comm]

theorem reads_ref : Reads ref fun r bytes =>
    (r.Typed ∧ Short r.object.key) ∧ bytes = refImage r := by
  refine (reads_key.bind fun object => reads_offset.bind fun base =>
    (Reads.unsigned malformed 4).bind fun records => Reads.pure (⟨object, base, records⟩ : ObjectRef)).congr
      fun r bytes => ?_
  constructor
  · rintro ⟨object, _, _, ⟨⟨typed, short⟩, rfl⟩, ⟨base, _, _, ⟨hbase, rfl⟩, ⟨records, _, _,
      ⟨hrecords, rfl⟩, ⟨rfl, rfl⟩, rfl⟩, rfl⟩, rfl⟩
    exact ⟨⟨⟨typed, hbase, hrecords⟩, short⟩, by simp [refImage]⟩
  · rintro ⟨⟨⟨typed, hbase, hrecords⟩, short⟩, rfl⟩
    exact ⟨r.object, _, _, ⟨⟨typed, short⟩, rfl⟩, ⟨r.baseOffset, _, _, ⟨hbase, rfl⟩,
      ⟨r.recordCount, _, _, ⟨hrecords, rfl⟩, ⟨rfl, rfl⟩, rfl⟩, rfl⟩, by simp [refImage]⟩

theorem reads_counted {α : Type} {read : Read Error α} {valid : α → Prop}
    {image : α → List UInt8} (h : Reads read fun a bytes => valid a ∧ bytes = image a) :
    Reads (u32 >>= fun count => readMany read count) fun l bytes =>
      (l.length < 2 ^ 32 ∧ ∀ a ∈ l, valid a) ∧ bytes = toBeBytes 4 l.length ++ l.flatMap image := by
  refine ((Reads.unsigned malformed 4).bind fun count => h.many count).congr fun l bytes => ?_
  constructor
  · rintro ⟨_, _, _, ⟨small, rfl⟩, ⟨⟨rfl, all⟩, rfl⟩, rfl⟩
    exact ⟨⟨small, all⟩, rfl⟩
  · rintro ⟨⟨small, all⟩, rfl⟩
    exact ⟨l.length, _, _, ⟨small, rfl⟩, ⟨⟨rfl, all⟩, rfl⟩, rfl⟩

theorem reads_refs : Reads refs fun refs bytes =>
    ((∀ r ∈ refs, r.Typed) ∧ RefsFit refs) ∧ bytes = refsImage refs := by
  refine (reads_counted reads_ref).congr fun refs bytes => ?_
  refine and_congr_left fun _ => ?_
  constructor
  · rintro ⟨small, all⟩
    exact ⟨fun r hr => (all r hr).1, small, fun r hr => (all r hr).2⟩
  · rintro ⟨typed, small, short⟩
    exact ⟨small, fun r hr => ⟨typed r hr, short r hr⟩⟩

/-- A byte that says whether something follows. -/
theorem reads_flagged {α : Type} (absent : α) {present : Read Error α}
    {F : α → List UInt8 → Prop} (h : Reads present F) :
    Reads (do match ← u8 with
      | 0 => return absent
      | 1 => present
      | _ => refuse) fun a bytes => (a = absent ∧ bytes = toBeBytes 1 0) ∨
        ∃ rest, F a rest ∧ bytes = toBeBytes 1 1 ++ rest := by
  refine ((Reads.unsigned malformed 1).bind (G := fun tag a bytes =>
    (tag = 0 ∧ a = absent ∧ bytes = []) ∨ tag = 1 ∧ F a bytes) fun tag => ?_).congr
      fun a bytes => ?_
  · match tag with
    | 0 => exact (Reads.pure absent).congr (by simp)
    | 1 => exact h.congr (by simp)
    | tag + 2 => exact reads_refuse.congr (by simp)
  · constructor
    · rintro ⟨_, _, _, ⟨-, rfl⟩, ⟨rfl, rfl, rfl⟩ | ⟨rfl, found⟩, rfl⟩
      · exact .inl ⟨rfl, List.append_nil _⟩
      · exact .inr ⟨_, found, rfl⟩
    · rintro (⟨rfl, rfl⟩ | ⟨rest, found, rfl⟩)
      · exact ⟨0, _, [], ⟨by decide, rfl⟩, .inl ⟨rfl, rfl, rfl⟩, (List.append_nil _).symm⟩
      · exact ⟨1, _, rest, ⟨by decide, rfl⟩, .inr ⟨rfl, found⟩, rfl⟩

theorem reads_bytes : Reads decodeBytes fun range bytes =>
    range.Typed ∧ bytes = bytesImage range := by
  refine (reads_flagged ByteRange.full ((Reads.unsigned malformed 8).bind fun offset =>
    (Reads.unsigned malformed 8).bind fun length =>
      reads_checked (ByteRange.new offset length))).congr fun range bytes => ?_
  constructor
  · rintro (⟨rfl, rfl⟩ | ⟨_, ⟨offset, _, _, ⟨hoffset, rfl⟩, ⟨length, _, _, ⟨hlength, rfl⟩,
      ⟨made, rfl⟩, rfl⟩, rfl⟩, rfl⟩)
    · exact ⟨trivial, rfl⟩
    · unfold ByteRange.new at made
      split at made
      · cases made
      · rename_i nonzero
        cases made
        exact ⟨⟨⟨hoffset, hlength⟩, nonzero⟩, by simp [bytesImage]⟩
  · rintro ⟨typed, rfl⟩
    cases range with
    | full => exact .inl ⟨rfl, rfl⟩
    | bounded offset length =>
      obtain ⟨⟨hoffset, hlength⟩, nonzero⟩ := typed
      exact .inr ⟨_, ⟨offset, _, _, ⟨hoffset, rfl⟩, ⟨length, _, _, ⟨hlength, rfl⟩,
        ⟨by simp [ByteRange.new, nonzero], rfl⟩, rfl⟩, rfl⟩, by simp [bytesImage]⟩

theorem reads_producer : Reads decodeProducer fun producer bytes =>
    (∀ held, producer = some held → held.Typed) ∧ bytes = producerImage producer := by
  have id : Reads (i64 >>= fun raw => checked (ProducerId.new raw))
      fun value bytes => value < 2 ^ 63 ∧ bytes = toBeBytes 8 value :=
    reads_nonnegative (fun _ => rfl) (by decide)
  have epoch : Reads (signed malformed 2 >>= fun raw => checked (ProducerEpoch.new raw))
      fun value bytes => value < 2 ^ 15 ∧ bytes = toBeBytes 2 value :=
    reads_nonnegative (fun _ => rfl) (by decide)
  refine (reads_flagged none (Reads.reassoc (id.bind fun id => Reads.reassoc (epoch.bind
    fun epoch => (Reads.signed malformed (by decide)).bind fun sequence =>
      Reads.pure (some (⟨id, epoch, sequence⟩ : ProducerIdentity)))))).congr fun producer bytes => ?_
  constructor
  · rintro (⟨rfl, rfl⟩ | ⟨_, ⟨id, _, _, ⟨hid, rfl⟩, ⟨epoch, _, _, ⟨hepoch, rfl⟩, ⟨sequence, _, _,
      ⟨hsequence, rfl⟩, ⟨rfl, rfl⟩, rfl⟩, rfl⟩, rfl⟩, rfl⟩)
    · exact ⟨nofun, rfl⟩
    · refine ⟨?_, by simp [producerImage, signedImage]⟩
      rintro _ ⟨⟩
      exact ⟨hid, hepoch, hsequence⟩
  · rintro ⟨typed, rfl⟩
    cases producer with
    | none => exact .inl ⟨rfl, rfl⟩
    | some held =>
      obtain ⟨hid, hepoch, hsequence⟩ := typed held rfl
      exact .inr ⟨_, ⟨held.id, _, _, ⟨hid, rfl⟩, ⟨held.epoch, _, _, ⟨hepoch, rfl⟩, ⟨held.sequence,
        _, _, ⟨hsequence, rfl⟩, ⟨rfl, rfl⟩, rfl⟩, rfl⟩, rfl⟩, by simp [producerImage, signedImage]⟩

theorem reads_retentionMs : Reads decodeRetentionMs fun retention bytes =>
    (∀ value, retention = some value → -(2 ^ 63) ≤ value ∧ value < 2 ^ 63) ∧
      bytes = retentionImage retention := by
  refine (reads_flagged none ((Reads.signed malformed (by decide)).bind fun value =>
    Reads.pure (some value))).congr fun retention bytes => ?_
  constructor
  · rintro (⟨rfl, rfl⟩ | ⟨_, ⟨value, _, _, ⟨inside, rfl⟩, ⟨rfl, rfl⟩, rfl⟩, rfl⟩)
    · exact ⟨nofun, rfl⟩
    · refine ⟨?_, by simp [retentionImage, signedImage]⟩
      rintro _ ⟨⟩
      exact inside
  · rintro ⟨typed, rfl⟩
    cases retention with
    | none => exact .inl ⟨rfl, rfl⟩
    | some value =>
      exact .inr ⟨_, ⟨value, _, _, ⟨typed value rfl, rfl⟩, ⟨rfl, rfl⟩, rfl⟩,
        by simp [retentionImage, signedImage]⟩

theorem reads_span : Reads decodeSpan fun span bytes =>
    (span.Typed ∧ Short span.topic.name) ∧ bytes = spanImage span := by
  refine (reads_partition.bind fun key => (Reads.unsigned malformed 4).bind fun records =>
    reads_bytes.bind fun range => reads_producer.bind fun producer =>
      Reads.pure (⟨key.1, key.2, records, range, producer⟩ : CommittedSpan)).congr
        fun span bytes => ?_
  constructor
  · rintro ⟨key, _, _, ⟨⟨htopic, hpartition, short⟩, rfl⟩, ⟨records, _, _, ⟨hrecords, rfl⟩, ⟨range,
      _, _, ⟨hrange, rfl⟩, ⟨producer, _, _, ⟨hproducer, rfl⟩, ⟨rfl, rfl⟩, rfl⟩, rfl⟩, rfl⟩, rfl⟩
    exact ⟨⟨⟨htopic, hpartition, hrecords, hrange, hproducer⟩, short⟩, by simp [spanImage]⟩
  · rintro ⟨⟨⟨htopic, hpartition, hrecords, hrange, hproducer⟩, short⟩, rfl⟩
    exact ⟨(span.topic, span.partition), _, _, ⟨⟨htopic, hpartition, short⟩, rfl⟩,
      ⟨span.recordCount, _, _, ⟨hrecords, rfl⟩, ⟨span.bytes, _, _, ⟨hrange, rfl⟩,
        ⟨span.producer, _, _, ⟨hproducer, rfl⟩, ⟨rfl, rfl⟩, rfl⟩, rfl⟩, rfl⟩, by simp [spanImage]⟩

/-- What a tag's reader accepts: a record of its kind, after the tag. -/
def Kind (tag : Nat) (record : MetadataRecord) (bytes : List UInt8) : Prop :=
  (record.Typed ∧ RecordFits record) ∧ tagOf record = tag ∧ bytes = bodyImage record

theorem reads_batch : Reads decodeBatch (Kind tagBatch) := by
  have millis : Reads (i64 >>= fun raw => checked (Timestamp.fromMillis raw))
      fun value bytes => value < 2 ^ 63 ∧ bytes = toBeBytes 8 value :=
    reads_nonnegative (fun _ => rfl) (by decide)
  refine (reads_key.bind fun object => Reads.reassoc (millis.bind fun writtenAt => Reads.reassoc
    ((reads_counted reads_span).bind fun spans =>
      Reads.pure (MetadataRecord.batchCommitted object spans writtenAt)))).congr fun r bytes => ?_
  constructor
  · rintro ⟨object, _, _, ⟨⟨hobject, short⟩, rfl⟩, ⟨writtenAt, _, _, ⟨hwritten, rfl⟩, ⟨spans, _, _,
      ⟨⟨small, all⟩, rfl⟩, ⟨rfl, rfl⟩, rfl⟩, rfl⟩, rfl⟩
    exact ⟨⟨⟨hobject, hwritten, fun span h => (all span h).1⟩,
      short, small, fun span h => (all span h).2⟩, rfl, by simp [bodyImage]⟩
  · rintro ⟨⟨typed, fits⟩, kind, rfl⟩
    cases r with
    | batchCommitted object spans writtenAt =>
      obtain ⟨hobject, hwritten, hspans⟩ := typed
      obtain ⟨short, small, shorts⟩ := fits
      exact ⟨object, _, _, ⟨⟨hobject, short⟩, rfl⟩, ⟨writtenAt, _, _, ⟨hwritten, rfl⟩, ⟨spans, _, _,
        ⟨⟨small, fun span h => ⟨hspans span h, shorts span h⟩⟩, rfl⟩, ⟨rfl, rfl⟩, rfl⟩, rfl⟩,
          by simp [bodyImage]⟩
    | _ => cases kind

theorem reads_manifest : Reads decodeManifest (Kind tagManifest) := by
  refine (reads_partition.bind fun place => reads_key.bind fun manifest => reads_offset.bind
    fun upto => Reads.pure (MetadataRecord.manifestPublished place.1 place.2 manifest upto)).congr
      fun r bytes => ?_
  constructor
  · rintro ⟨place, _, _, ⟨⟨htopic, hpartition, short⟩, rfl⟩, ⟨manifest, _, _, ⟨⟨hmanifest, short'⟩,
      rfl⟩, ⟨upto, _, _, ⟨hupto, rfl⟩, ⟨rfl, rfl⟩, rfl⟩, rfl⟩, rfl⟩
    exact ⟨⟨⟨htopic, hpartition, hmanifest, hupto⟩, short, short'⟩, rfl, by simp [bodyImage]⟩
  · rintro ⟨⟨typed, fits⟩, kind, rfl⟩
    cases r with
    | manifestPublished topic partition manifest upto =>
      obtain ⟨htopic, hpartition, hmanifest, hupto⟩ := typed
      exact ⟨(topic, partition), _, _, ⟨⟨htopic, hpartition, fits.1⟩, rfl⟩, ⟨manifest, _, _,
        ⟨⟨hmanifest, fits.2⟩, rfl⟩, ⟨upto, _, _, ⟨hupto, rfl⟩, ⟨rfl, rfl⟩, rfl⟩, rfl⟩,
          by simp [bodyImage]⟩
    | _ => cases kind

theorem reads_compacted : Reads decodeCompacted (Kind tagCompacted) := by
  refine (reads_partition.bind fun place => reads_refs.bind fun retiring => reads_refs.bind
    fun installing => Reads.pure
      (MetadataRecord.rangeCompacted place.1 place.2 retiring installing)).congr fun r bytes => ?_
  constructor
  · rintro ⟨place, _, _, ⟨⟨htopic, hpartition, short⟩, rfl⟩, ⟨retiring, _, _, ⟨⟨hretiring, fits⟩,
      rfl⟩, ⟨installing, _, _, ⟨⟨hinstalling, fits'⟩, rfl⟩, ⟨rfl, rfl⟩, rfl⟩, rfl⟩, rfl⟩
    exact ⟨⟨⟨htopic, hpartition, hretiring, hinstalling⟩, short, fits, fits'⟩, rfl,
      by simp [bodyImage]⟩
  · rintro ⟨⟨typed, fits⟩, kind, rfl⟩
    cases r with
    | rangeCompacted topic partition retiring installing =>
      obtain ⟨htopic, hpartition, hretiring, hinstalling⟩ := typed
      obtain ⟨short, fits, fits'⟩ := fits
      exact ⟨(topic, partition), _, _, ⟨⟨htopic, hpartition, short⟩, rfl⟩, ⟨retiring, _, _,
        ⟨⟨hretiring, fits⟩, rfl⟩, ⟨installing, _, _, ⟨⟨hinstalling, fits'⟩, rfl⟩, ⟨rfl, rfl⟩, rfl⟩,
          rfl⟩, by simp [bodyImage]⟩
    | _ => cases kind

theorem reads_trimmed : Reads decodeTrimmed (Kind tagTrimmed) := by
  refine (reads_partition.bind fun place => reads_offset.bind fun start =>
    Reads.pure (MetadataRecord.trimmed place.1 place.2 start)).congr fun r bytes => ?_
  constructor
  · rintro ⟨place, _, _, ⟨⟨htopic, hpartition, short⟩, rfl⟩, ⟨start, _, _, ⟨hstart, rfl⟩,
      ⟨rfl, rfl⟩, rfl⟩, rfl⟩
    exact ⟨⟨⟨htopic, hpartition, hstart⟩, short⟩, rfl, by simp [bodyImage]⟩
  · rintro ⟨⟨typed, fits⟩, kind, rfl⟩
    cases r with
    | trimmed topic partition start =>
      obtain ⟨htopic, hpartition, hstart⟩ := typed
      exact ⟨(topic, partition), _, _, ⟨⟨htopic, hpartition, fits⟩, rfl⟩, ⟨start, _, _,
        ⟨hstart, rfl⟩, ⟨rfl, rfl⟩, rfl⟩, by simp [bodyImage]⟩
    | _ => cases kind

theorem reads_epoch : Reads decodeEpoch (Kind tagEpoch) := by
  refine ((Reads.unsigned malformed 8).bind fun epoch =>
    Reads.pure (MetadataRecord.epochChanged epoch)).congr fun r bytes => ?_
  constructor
  · rintro ⟨epoch, _, _, ⟨small, rfl⟩, ⟨rfl, rfl⟩, rfl⟩
    exact ⟨⟨small, trivial⟩, rfl, by simp [bodyImage]⟩
  · rintro ⟨⟨typed, -⟩, kind, rfl⟩
    cases r with
    | epochChanged epoch =>
      exact ⟨epoch, _, _, ⟨typed, rfl⟩, ⟨rfl, rfl⟩, by simp [bodyImage]⟩
    | _ => cases kind

theorem reads_retention : Reads decodeRetention (Kind tagRetention) := by
  refine (reads_topic.bind fun topic => reads_retentionMs.bind fun retentionMs =>
    Reads.pure (MetadataRecord.topicRetentionChanged topic retentionMs)).congr fun r bytes => ?_
  constructor
  · rintro ⟨topic, _, _, ⟨⟨htopic, short⟩, rfl⟩, ⟨retentionMs, _, _, ⟨hretention, rfl⟩,
      ⟨rfl, rfl⟩, rfl⟩, rfl⟩
    exact ⟨⟨⟨htopic, hretention⟩, short⟩, rfl, by simp [bodyImage]⟩
  · rintro ⟨⟨typed, fits⟩, kind, rfl⟩
    cases r with
    | topicRetentionChanged topic retentionMs =>
      exact ⟨topic, _, _, ⟨⟨typed.1, fits⟩, rfl⟩, ⟨retentionMs, _, _, ⟨typed.2, rfl⟩,
        ⟨rfl, rfl⟩, rfl⟩, by simp [bodyImage]⟩
    | _ => cases kind

theorem tagOf_cases (r : MetadataRecord) : 1 ≤ tagOf r ∧ tagOf r ≤ 6 := by
  cases r <;> simp [tagOf, tagBatch, tagManifest, tagCompacted, tagTrimmed, tagEpoch, tagRetention]

theorem reads_record : Reads decodeRecord fun r bytes =>
    (r.Typed ∧ RecordFits r) ∧ bytes = recordImage r := by
  apply Reads.get_bind
  intro cur
  refine ((Reads.unsigned malformed 1).bind (G := Kind) fun tag => ?_).congr fun r bytes => ?_
  · match tag with
    | 1 => exact reads_batch
    | 2 => exact reads_manifest
    | 3 => exact reads_compacted
    | 4 => exact reads_trimmed
    | 5 => exact reads_epoch
    | 6 => exact reads_retention
    | 0 =>
      refine (Reads.throw _).congr fun r bytes => iff_of_false id ?_
      rintro ⟨-, kind, -⟩
      have := tagOf_cases r
      omega
    | tag + 7 =>
      refine (Reads.throw _).congr fun r bytes => iff_of_false id ?_
      rintro ⟨-, kind, -⟩
      have := tagOf_cases r
      omega
  · constructor
    · rintro ⟨_, _, _, ⟨-, rfl⟩, ⟨valid, rfl, rfl⟩, rfl⟩
      exact ⟨valid, rfl⟩
    · rintro ⟨valid, rfl⟩
      have tags := tagOf_cases r
      exact ⟨tagOf r, _, _, ⟨by omega, rfl⟩, ⟨valid, rfl, rfl⟩, rfl⟩

theorem reads_entry : Reads decodeEntry fun entry bytes =>
    (entry.Typed ∧ RecordFits entry.record) ∧ bytes = entryImage entry := by
  refine ((Reads.unsigned malformed 8).bind fun version => reads_record.bind fun record =>
    Reads.pure (⟨version, record⟩ : MetadataEntry)).congr fun entry bytes => ?_
  constructor
  · rintro ⟨version, _, _, ⟨small, rfl⟩, ⟨record, _, _, ⟨⟨typed, fits⟩, rfl⟩, ⟨rfl, rfl⟩, rfl⟩, rfl⟩
    exact ⟨⟨⟨small, typed⟩, fits⟩, by simp [entryImage]⟩
  · rintro ⟨⟨⟨small, typed⟩, fits⟩, rfl⟩
    exact ⟨entry.version, _, _, ⟨small, rfl⟩, ⟨entry.record, _, _, ⟨⟨typed, fits⟩, rfl⟩,
      ⟨rfl, rfl⟩, rfl⟩, by simp [entryImage]⟩

/-- A segment: the magic, the format, and the entries, counted. -/
theorem reads_framed {α : Type} {magic : List UInt8} (four : magic.length = 4) {format : Nat}
    (small : format < 256) {read : Read Error α} {valid : α → Prop} {image : α → List UInt8}
    (h : Reads read fun a bytes => valid a ∧ bytes = image a) :
    Reads (do
      let head ← take malformed 4
      if head ≠ magic then refuse
      else
        let version ← u8
        if version ≠ format then refuse
        else
          let count ← u32
          readMany read count) fun l bytes => (l.length < 2 ^ 32 ∧ ∀ a ∈ l, valid a) ∧
        bytes = magic ++ (toBeBytes 1 format ++ (toBeBytes 4 l.length ++ l.flatMap image)) := by
  refine ((Reads.take malformed 4).bind (G := fun head l bytes => head = magic ∧
    (l.length < 2 ^ 32 ∧ ∀ a ∈ l, valid a) ∧ bytes = toBeBytes 1 format ++
      (toBeBytes 4 l.length ++ l.flatMap image)) fun head => ?_).congr fun l bytes => ?_
  · by_cases marked : head = magic
    · simp only [marked, ne_eq, not_true_eq_false, if_false, true_and]
      refine ((Reads.unsigned malformed 1).bind (G := fun version l bytes => version = format ∧
        (l.length < 2 ^ 32 ∧ ∀ a ∈ l, valid a) ∧ bytes = toBeBytes 4 l.length ++ l.flatMap image)
          fun version => ?_).congr fun l bytes => ?_
      · by_cases known : version = format
        · simp only [known, not_true_eq_false, if_false, true_and]
          exact reads_counted h
        · simp only [known, not_false_eq_true, if_true, false_and]
          exact reads_refuse
      · constructor
        · rintro ⟨_, _, _, ⟨-, rfl⟩, ⟨rfl, valid, rfl⟩, rfl⟩
          exact ⟨valid, rfl⟩
        · rintro ⟨valid, rfl⟩
          exact ⟨format, _, _, ⟨small, rfl⟩, ⟨rfl, valid, rfl⟩, rfl⟩
    · simp only [ne_eq, marked, not_false_eq_true, if_true, false_and]
      exact reads_refuse
  · constructor
    · rintro ⟨_, _, _, ⟨-, rfl⟩, ⟨rfl, valid, rfl⟩, rfl⟩
      exact ⟨valid, rfl⟩
    · rintro ⟨valid, rfl⟩
      exact ⟨magic, _, _, ⟨four, rfl⟩, ⟨rfl, valid, rfl⟩, rfl⟩

theorem reads_segment : Reads readSegment fun entries bytes =>
    ((∀ entry ∈ entries, entry.Typed) ∧ SegmentFits entries) ∧ bytes = segmentImage entries := by
  refine (reads_framed rfl (by decide) reads_entry).congr fun entries bytes => ?_
  refine and_congr_left fun _ => ?_
  constructor
  · rintro ⟨small, all⟩
    exact ⟨fun e h => (all e h).1, small, fun e h => (all e h).2⟩
  · rintro ⟨typed, small, fits⟩
    exact ⟨small, fun e h => ⟨typed e h, fits e h⟩⟩

end Segment

theorem encodeSegment_eq_ok {entries : List MetadataEntry} {bytes : List UInt8} :
    encodeSegment entries = .ok bytes ↔ SegmentFits entries ∧ bytes = segmentImage entries := by
  rw [← (writes_segment entries).whole]
  unfold encodeSegment
  rw [Checked.bind_eq_ok]
  constructor
  · rintro ⟨⟨⟨⟩, out⟩, ran, h⟩
    cases h
    exact ran
  · intro ran
    exact ⟨_, ran, rfl⟩

theorem decodeSegment_eq_ok {bytes : List UInt8} {entries : List MetadataEntry} :
    decodeSegment bytes = .ok entries ↔
      (∀ entry ∈ entries, entry.Typed) ∧ SegmentFits entries ∧ bytes = segmentImage entries := by
  unfold decodeSegment
  rw [Checked.bind_eq_ok]
  constructor
  · rintro ⟨⟨_, cur⟩, ran, h⟩
    dsimp only at h
    split at h
    · cases h
    · rename_i whole
      cases h
      obtain ⟨⟨⟨typed, fits⟩, here⟩, -⟩ := reads_segment.whole.mp ⟨ran, not_not.mp whole⟩
      exact ⟨typed, fits, here⟩
  · rintro ⟨typed, fits, here⟩
    obtain ⟨ran, whole⟩ := reads_segment.whole.mpr ⟨⟨⟨typed, fits⟩, here⟩, rfl⟩
    exact ⟨_, ran, by simp only [ne_eq, not_true_eq_false, if_false]; rfl⟩

/-- A segment decodes to a list of entries exactly when the list is one the types
hold and encodes to it. -/
theorem decodeSegment_canonical (bytes : List UInt8) (entries : List MetadataEntry) :
    decodeSegment bytes = .ok entries ↔
      (∀ entry ∈ entries, entry.Typed) ∧ encodeSegment entries = .ok bytes := by
  rw [decodeSegment_eq_ok, encodeSegment_eq_ok]

end Oqueue
