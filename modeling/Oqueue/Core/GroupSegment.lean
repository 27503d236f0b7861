import Oqueue.Core.SegmentFormat
import Oqueue.Group.State

/-!
# The bytes of one group-log segment

The records of consumer groups, and the form they are logged in: the metadata log's rules
with the group log's own fields. A segment decodes to a list of entries exactly when the
list encodes to it.
-/

namespace Oqueue

open Bytes Checked Reader Format

structure GroupId where
  name : String
  deriving DecidableEq, Repr

def GroupId.new (name : String) : Except Error GroupId :=
  if name.isEmpty then .error .emptyGroupId else .ok ⟨name⟩

inductive GroupMetadataRecord where
  | offsetCommitted (group : GroupId) (topic : TopicId) (partition offset : Int)
  | groupTransitioned (group : GroupId) (event : GroupEvent)
  | groupRosterUpdated (group : GroupId) (roster : Option GroupRosterSnapshot)
  deriving DecidableEq, Repr

structure GroupMetadataEntry where
  version : Nat
  record : GroupMetadataRecord
  deriving DecidableEq, Repr

namespace GroupSegment

open Segment (Short strImage signedImage utf8)

/-- The ASCII of "OQGL". -/
def magic : List UInt8 := [0x4F, 0x51, 0x47, 0x4C]

def format : Nat := 1

def tagOffset : Nat := 1
def tagTransition : Nat := 2
def tagRoster : Nat := 3

def eventTag : GroupEvent → Nat
  | .join => 1
  | .joinBarrierComplete => 2
  | .syncComplete => 3
  | .memberJoinedDuringSync => 4
  | .memberLeft => 5
  | .allMembersGone => 6
  | .expire => 7

def eventFrom : Nat → Option GroupEvent
  | 1 => some .join
  | 2 => some .joinBarrierComplete
  | 3 => some .syncComplete
  | 4 => some .memberJoinedDuringSync
  | 5 => some .memberLeft
  | 6 => some .allMembersGone
  | 7 => some .expire
  | _ => none

def putLen16 (len : Nat) : Put := fun out =>
  if len < 2 ^ 16 then append (toBeBytes 2 len) out
  else .error (.malformedMetadataSegment out.length)

def putRoster : Option GroupRosterSnapshot → Put
  | none => append (toBeBytes 1 0)
  | some roster => do
    append (toBeBytes 1 1)
    Segment.putStr roster.protocolType
    Segment.putStr roster.protocolName
    putLen16 roster.memberIds.length
    roster.memberIds.forM Segment.putStr

def putRecord : GroupMetadataRecord → Put
  | .offsetCommitted group topic partition offset => do
    append (toBeBytes 1 tagOffset)
    Segment.putStr group.name
    Segment.putStr topic.name
    Segment.putSigned 4 partition
    Segment.putSigned 8 offset
  | .groupTransitioned group event => do
    append (toBeBytes 1 tagTransition)
    Segment.putStr group.name
    append (toBeBytes 1 (eventTag event))
  | .groupRosterUpdated group roster => do
    append (toBeBytes 1 tagRoster)
    Segment.putStr group.name
    putRoster roster

def putEntry (entry : GroupMetadataEntry) : Put := do
  append (toBeBytes 8 entry.version)
  putRecord entry.record

def putSegment (entries : List GroupMetadataEntry) : Put := do
  append magic
  append (toBeBytes 1 format)
  Segment.putLen32 entries.length
  entries.forM putEntry

def group : Read Error GroupId := do
  let raw ← Segment.string
  Segment.checked (GroupId.new raw)

def memberIds : Read Error (List String) := do
  let count ← unsigned Segment.malformed 2
  readMany Segment.string count

def roster : Read Error (Option GroupRosterSnapshot) := do
  match ← Segment.u8 with
  | 0 => return none
  | 1 =>
    let protocolType ← Segment.string
    let protocolName ← Segment.string
    let memberIds ← memberIds
    return some ⟨protocolType, protocolName, memberIds⟩
  | _ => Segment.refuse

def event : Read Error GroupEvent := do
  let tag ← Segment.u8
  match eventFrom tag with
  | some event => return event
  | none => Segment.refuse

def readOffset : Read Error GroupMetadataRecord := do
  let group ← group
  let topic ← Segment.topic
  let partition ← signed Segment.malformed 4
  let offset ← signed Segment.malformed 8
  return .offsetCommitted group topic partition offset

def readTransition : Read Error GroupMetadataRecord := do
  let group ← group
  let event ← event
  return .groupTransitioned group event

def readRoster : Read Error GroupMetadataRecord := do
  let group ← group
  let roster ← roster
  return .groupRosterUpdated group roster

def readRecord : Read Error GroupMetadataRecord := do
  let cur ← get
  match ← Segment.u8 with
  | 1 => readOffset
  | 2 => readTransition
  | 3 => readRoster
  | _ => throw (.malformedMetadataSegment cur.pos)

def readEntry : Read Error GroupMetadataEntry := do
  let version ← Segment.u64
  let record ← readRecord
  return ⟨version, record⟩

def readSegment : Read Error (List GroupMetadataEntry) := do
  let head ← take Segment.malformed 4
  if head ≠ magic then Segment.refuse
  else
    let version ← Segment.u8
    if version ≠ format then Segment.refuse
    else
      let count ← Segment.u32
      readMany readEntry count

def encode (entries : List GroupMetadataEntry) : Except Error (List UInt8) := do
  let ((), out) ← (putSegment entries).run []
  return out

def decode (bytes : List UInt8) : Except Error (List GroupMetadataEntry) := do
  let (entries, cur) ← readSegment.run ⟨bytes, 0⟩
  if cur.pos ≠ bytes.length then .error (.malformedMetadataSegment cur.pos) else return entries

def rosterImage : Option GroupRosterSnapshot → List UInt8
  | none => toBeBytes 1 0
  | some roster => toBeBytes 1 1 ++ (strImage roster.protocolType ++ (strImage roster.protocolName ++
      (toBeBytes 2 roster.memberIds.length ++ roster.memberIds.flatMap strImage)))

def RosterFits (roster : Option GroupRosterSnapshot) : Prop :=
  ∀ held, roster = some held → Short held.protocolType ∧ Short held.protocolName ∧
    held.memberIds.length < 2 ^ 16 ∧ ∀ memberId ∈ held.memberIds, Short memberId

def tagOf : GroupMetadataRecord → Nat
  | .offsetCommitted .. => tagOffset
  | .groupTransitioned .. => tagTransition
  | .groupRosterUpdated .. => tagRoster

def bodyImage : GroupMetadataRecord → List UInt8
  | .offsetCommitted group topic partition offset => strImage group.name ++
      (strImage topic.name ++ (signedImage 4 partition ++ signedImage 8 offset))
  | .groupTransitioned group event => strImage group.name ++ toBeBytes 1 (eventTag event)
  | .groupRosterUpdated group roster => strImage group.name ++ rosterImage roster

/-- Every string and list of a record is short enough for its length field. -/
def RecordFits : GroupMetadataRecord → Prop
  | .offsetCommitted group topic _ _ => Short group.name ∧ Short topic.name
  | .groupTransitioned group _ => Short group.name
  | .groupRosterUpdated group roster => Short group.name ∧ RosterFits roster

/-- Every field of a record holds a value of the source's own type. -/
def RecordTyped : GroupMetadataRecord → Prop
  | .offsetCommitted group topic partition offset => group.name.isEmpty = false ∧ topic.Typed ∧
      (-(2 ^ 31) ≤ partition ∧ partition < 2 ^ 31) ∧ -(2 ^ 63) ≤ offset ∧ offset < 2 ^ 63
  | .groupTransitioned group _ => group.name.isEmpty = false
  | .groupRosterUpdated group _ => group.name.isEmpty = false

def entryImage (entry : GroupMetadataEntry) : List UInt8 :=
  toBeBytes 8 entry.version ++ (toBeBytes 1 (tagOf entry.record) ++ bodyImage entry.record)

def segmentImage (entries : List GroupMetadataEntry) : List UInt8 :=
  magic ++ (toBeBytes 1 format ++ (toBeBytes 4 entries.length ++ entries.flatMap entryImage))

def SegmentFits (entries : List GroupMetadataEntry) : Prop :=
  entries.length < 2 ^ 32 ∧ ∀ entry ∈ entries, RecordFits entry.record

theorem writes_roster (roster : Option GroupRosterSnapshot) :
    Writes (putRoster roster) fun w => RosterFits roster ∧ w = rosterImage roster := by
  cases roster with
  | none =>
    refine (Writes.append _).congr fun w => ?_
    simp [rosterImage, RosterFits]
  | some roster =>
    have count : Writes (putLen16 roster.memberIds.length) fun w =>
        roster.memberIds.length < 2 ^ 16 ∧ w = toBeBytes 2 roster.memberIds.length :=
      Writes.guarded _ (Writes.append _)
    refine ((Writes.append _).bind ((Segment.writes_str _).bind ((Segment.writes_str _).bind
      (count.bind (Writes.each Segment.writes_str roster.memberIds))))).congr fun w => ?_
    simp [rosterImage, RosterFits, and_assoc]

theorem writes_record (record : GroupMetadataRecord) :
    Writes (putRecord record) fun w =>
      RecordFits record ∧ w = toBeBytes 1 (tagOf record) ++ bodyImage record := by
  cases record with
  | offsetCommitted group topic partition offset =>
    refine ((Writes.append _).bind ((Segment.writes_str _).bind ((Segment.writes_str _).bind
      ((Writes.append _).bind (Writes.append _))))).congr fun w => ?_
    simp [tagOf, bodyImage, RecordFits, signedImage, and_assoc]
  | groupTransitioned group event =>
    refine ((Writes.append _).bind ((Segment.writes_str _).bind (Writes.append _))).congr fun w => ?_
    simp [tagOf, bodyImage, RecordFits]
  | groupRosterUpdated group roster =>
    refine ((Writes.append _).bind ((Segment.writes_str _).bind (writes_roster roster))).congr
      fun w => ?_
    simp [tagOf, bodyImage, RecordFits, and_assoc]

theorem writes_segment (entries : List GroupMetadataEntry) :
    Writes (putSegment entries) fun w => SegmentFits entries ∧ w = segmentImage entries := by
  have entry (entry : GroupMetadataEntry) : Writes (putEntry entry) fun w =>
      RecordFits entry.record ∧ w = entryImage entry := by
    refine ((Writes.append _).bind (writes_record entry.record)).congr fun w => ?_
    simp [entryImage]
  refine ((Writes.append _).bind ((Writes.append _).bind ((Segment.writes_len32 _).bind
    (Writes.each entry entries)))).congr fun w => ?_
  simp [segmentImage, SegmentFits, and_assoc]

theorem reads_group : Reads group fun group bytes =>
    (group.name.isEmpty = false ∧ Short group.name) ∧ bytes = strImage group.name := by
  refine (Segment.reads_string.bind fun raw => Segment.reads_checked (GroupId.new raw)).congr
    fun group bytes => ?_
  obtain ⟨name⟩ := group
  simp only [GroupId.new]
  constructor
  · rintro ⟨raw, _, _, ⟨short, rfl⟩, ⟨made, rfl⟩, rfl⟩
    split at made
    · cases made
    · rename_i nonempty
      cases made
      exact ⟨⟨by simpa using nonempty, short⟩, List.append_nil _⟩
  · rintro ⟨⟨nonempty, short⟩, rfl⟩
    exact ⟨name, _, _, ⟨short, rfl⟩, ⟨by simp [nonempty], rfl⟩, (List.append_nil _).symm⟩

theorem eventFrom_eq_some {tag : Nat} {event : GroupEvent} :
    eventFrom tag = some event ↔ tag = eventTag event := by
  constructor
  · intro h
    unfold eventFrom at h
    split at h <;> cases h <;> rfl
  · rintro rfl
    cases event <;> rfl

theorem reads_event : Reads event fun event bytes => bytes = toBeBytes 1 (eventTag event) := by
  refine ((Reads.unsigned Segment.malformed 1).bind (G := fun tag event bytes =>
    tag = eventTag event ∧ bytes = []) fun tag => ?_).congr fun event bytes => ?_
  · cases h : eventFrom tag with
    | some found =>
      refine (Reads.pure found).congr fun event bytes => ?_
      rw [← eventFrom_eq_some, h, Option.some.injEq, eq_comm]
    | none =>
      refine Segment.reads_refuse.congr fun event bytes => ?_
      rw [← eventFrom_eq_some, h]
      simp
  · constructor
    · rintro ⟨_, _, _, ⟨-, rfl⟩, ⟨rfl, rfl⟩, rfl⟩
      exact List.append_nil _
    · rintro rfl
      exact ⟨eventTag event, _, [], ⟨by cases event <;> decide, rfl⟩, ⟨rfl, rfl⟩,
        (List.append_nil _).symm⟩

theorem reads_memberIds : Reads memberIds fun ids bytes =>
    (ids.length < 2 ^ 16 ∧ ∀ memberId ∈ ids, Short memberId) ∧
      bytes = toBeBytes 2 ids.length ++ ids.flatMap strImage := by
  refine ((Reads.unsigned Segment.malformed 2).bind fun count =>
    Segment.reads_string.many count).congr fun ids bytes => ?_
  constructor
  · rintro ⟨_, _, _, ⟨small, rfl⟩, ⟨⟨rfl, all⟩, rfl⟩, rfl⟩
    exact ⟨⟨small, all⟩, rfl⟩
  · rintro ⟨⟨small, all⟩, rfl⟩
    exact ⟨ids.length, _, _, ⟨small, rfl⟩, ⟨⟨rfl, all⟩, rfl⟩, rfl⟩

theorem reads_roster : Reads roster fun roster bytes =>
    RosterFits roster ∧ bytes = rosterImage roster := by
  refine (Segment.reads_flagged none (Segment.reads_string.bind fun protocolType =>
    Segment.reads_string.bind fun protocolName => reads_memberIds.bind fun memberIds =>
      Reads.pure (some (⟨protocolType, protocolName, memberIds⟩ : GroupRosterSnapshot)))).congr
        fun roster bytes => ?_
  constructor
  · rintro (⟨rfl, rfl⟩ | ⟨_, ⟨type, _, _, ⟨htype, rfl⟩, ⟨name, _, _, ⟨hname, rfl⟩, ⟨ids, _, _,
      ⟨⟨small, all⟩, rfl⟩, ⟨rfl, rfl⟩, rfl⟩, rfl⟩, rfl⟩, rfl⟩)
    · exact ⟨nofun, rfl⟩
    · refine ⟨?_, by simp [rosterImage]⟩
      rintro _ ⟨⟩
      exact ⟨htype, hname, small, all⟩
  · rintro ⟨fits, rfl⟩
    cases roster with
    | none => exact .inl ⟨rfl, rfl⟩
    | some held =>
      obtain ⟨htype, hname, small, all⟩ := fits held rfl
      exact .inr ⟨_, ⟨held.protocolType, _, _, ⟨htype, rfl⟩, ⟨held.protocolName, _, _, ⟨hname, rfl⟩,
        ⟨held.memberIds, _, _, ⟨⟨small, all⟩, rfl⟩, ⟨rfl, rfl⟩, rfl⟩, rfl⟩, rfl⟩,
          by simp [rosterImage]⟩

/-- What a tag's reader accepts: a record of its kind, after the tag. -/
def Kind (tag : Nat) (record : GroupMetadataRecord) (bytes : List UInt8) : Prop :=
  (RecordTyped record ∧ RecordFits record) ∧ tagOf record = tag ∧ bytes = bodyImage record

theorem reads_offset : Reads readOffset (Kind tagOffset) := by
  refine (reads_group.bind fun group => Segment.reads_topic.bind fun topic =>
    (Reads.signed Segment.malformed (by decide)).bind fun partition =>
      (Reads.signed Segment.malformed (by decide)).bind fun offset =>
        Reads.pure (GroupMetadataRecord.offsetCommitted group topic partition offset)).congr
          fun r bytes => ?_
  constructor
  · rintro ⟨group, _, _, ⟨⟨hgroup, short⟩, rfl⟩, ⟨topic, _, _, ⟨⟨htopic, short'⟩, rfl⟩, ⟨partition,
      _, _, ⟨hpartition, rfl⟩, ⟨offset, _, _, ⟨hoffset, rfl⟩, ⟨rfl, rfl⟩, rfl⟩, rfl⟩, rfl⟩, rfl⟩
    exact ⟨⟨⟨hgroup, htopic, hpartition, hoffset⟩, short, short'⟩, rfl, by simp [bodyImage, signedImage]⟩
  · rintro ⟨⟨typed, fits⟩, kind, rfl⟩
    cases r with
    | offsetCommitted group topic partition offset =>
      obtain ⟨hgroup, htopic, hpartition, hoffset⟩ := typed
      exact ⟨group, _, _, ⟨⟨hgroup, fits.1⟩, rfl⟩, ⟨topic, _, _, ⟨⟨htopic, fits.2⟩, rfl⟩, ⟨partition,
        _, _, ⟨hpartition, rfl⟩, ⟨offset, _, _, ⟨hoffset, rfl⟩, ⟨rfl, rfl⟩, rfl⟩, rfl⟩, rfl⟩,
          by simp [bodyImage, signedImage]⟩
    | _ => cases kind

theorem reads_transition : Reads readTransition (Kind tagTransition) := by
  refine (reads_group.bind fun group => reads_event.bind fun event =>
    Reads.pure (GroupMetadataRecord.groupTransitioned group event)).congr fun r bytes => ?_
  constructor
  · rintro ⟨group, _, _, ⟨⟨hgroup, short⟩, rfl⟩, ⟨event, _, _, rfl, ⟨rfl, rfl⟩, rfl⟩, rfl⟩
    exact ⟨⟨hgroup, short⟩, rfl, by simp [bodyImage]⟩
  · rintro ⟨⟨typed, fits⟩, kind, rfl⟩
    cases r with
    | groupTransitioned group event =>
      exact ⟨group, _, _, ⟨⟨typed, fits⟩, rfl⟩, ⟨event, _, _, rfl, ⟨rfl, rfl⟩, rfl⟩,
        by simp [bodyImage]⟩
    | _ => cases kind

theorem reads_rosterRecord : Reads readRoster (Kind tagRoster) := by
  refine (reads_group.bind fun group => reads_roster.bind fun roster =>
    Reads.pure (GroupMetadataRecord.groupRosterUpdated group roster)).congr fun r bytes => ?_
  constructor
  · rintro ⟨group, _, _, ⟨⟨hgroup, short⟩, rfl⟩, ⟨roster, _, _, ⟨fits, rfl⟩, ⟨rfl, rfl⟩, rfl⟩, rfl⟩
    exact ⟨⟨hgroup, short, fits⟩, rfl, by simp [bodyImage]⟩
  · rintro ⟨⟨typed, fits⟩, kind, rfl⟩
    cases r with
    | groupRosterUpdated group roster =>
      exact ⟨group, _, _, ⟨⟨typed, fits.1⟩, rfl⟩, ⟨roster, _, _, ⟨fits.2, rfl⟩, ⟨rfl, rfl⟩, rfl⟩,
        by simp [bodyImage]⟩
    | _ => cases kind

theorem tagOf_cases (r : GroupMetadataRecord) : 1 ≤ tagOf r ∧ tagOf r ≤ 3 := by
  cases r <;> simp [tagOf, tagOffset, tagTransition, tagRoster]

theorem reads_record : Reads readRecord fun r bytes =>
    (RecordTyped r ∧ RecordFits r) ∧ bytes = toBeBytes 1 (tagOf r) ++ bodyImage r := by
  apply Reads.get_bind
  intro cur
  refine ((Reads.unsigned Segment.malformed 1).bind (G := Kind) fun tag => ?_).congr fun r bytes => ?_
  · match tag with
    | 1 => exact reads_offset
    | 2 => exact reads_transition
    | 3 => exact reads_rosterRecord
    | 0 =>
      refine (Reads.throw _).congr fun r bytes => iff_of_false id ?_
      rintro ⟨-, kind, -⟩
      have := tagOf_cases r
      omega
    | tag + 4 =>
      refine (Reads.throw _).congr fun r bytes => iff_of_false id ?_
      rintro ⟨-, kind, -⟩
      have := tagOf_cases r
      omega
  · constructor
    · rintro ⟨_, _, _, ⟨-, rfl⟩, ⟨valid, rfl, rfl⟩, rfl⟩
      exact ⟨valid, rfl⟩
    · rintro ⟨valid, rfl⟩
      have tags := tagOf_cases r
      exact ⟨tagOf r, _, _, ⟨by omega, rfl⟩, ⟨valid, rfl, rfl⟩, rfl⟩

def EntryTyped (entry : GroupMetadataEntry) : Prop :=
  entry.version < 2 ^ 64 ∧ RecordTyped entry.record

theorem reads_entry : Reads readEntry fun entry bytes =>
    (EntryTyped entry ∧ RecordFits entry.record) ∧ bytes = entryImage entry := by
  refine ((Reads.unsigned Segment.malformed 8).bind fun version => reads_record.bind fun record =>
    Reads.pure (⟨version, record⟩ : GroupMetadataEntry)).congr fun entry bytes => ?_
  constructor
  · rintro ⟨version, _, _, ⟨small, rfl⟩, ⟨record, _, _, ⟨⟨typed, fits⟩, rfl⟩, ⟨rfl, rfl⟩, rfl⟩, rfl⟩
    exact ⟨⟨⟨small, typed⟩, fits⟩, by simp [entryImage]⟩
  · rintro ⟨⟨⟨small, typed⟩, fits⟩, rfl⟩
    exact ⟨entry.version, _, _, ⟨small, rfl⟩, ⟨entry.record, _, _, ⟨⟨typed, fits⟩, rfl⟩,
      ⟨rfl, rfl⟩, rfl⟩, by simp [entryImage]⟩

theorem reads_segment : Reads readSegment fun entries bytes => (entries.length < 2 ^ 32 ∧
    ∀ entry ∈ entries, EntryTyped entry ∧ RecordFits entry.record) ∧ bytes = segmentImage entries :=
  Segment.reads_framed rfl (by decide) reads_entry

theorem encode_eq_ok {entries : List GroupMetadataEntry} {bytes : List UInt8} :
    encode entries = .ok bytes ↔ SegmentFits entries ∧ bytes = segmentImage entries := by
  rw [← (writes_segment entries).whole]
  unfold encode
  rw [Checked.bind_eq_ok]
  constructor
  · rintro ⟨⟨⟨⟩, out⟩, ran, h⟩
    cases h
    exact ran
  · intro ran
    exact ⟨_, ran, rfl⟩

theorem decode_eq_ok {bytes : List UInt8} {entries : List GroupMetadataEntry} :
    decode bytes = .ok entries ↔
      (∀ entry ∈ entries, EntryTyped entry) ∧ SegmentFits entries ∧ bytes = segmentImage entries := by
  unfold decode
  rw [Checked.bind_eq_ok]
  constructor
  · rintro ⟨⟨_, cur⟩, ran, h⟩
    dsimp only at h
    split at h
    · cases h
    · rename_i whole
      cases h
      obtain ⟨⟨⟨small, all⟩, here⟩, -⟩ := reads_segment.whole.mp ⟨ran, not_not.mp whole⟩
      exact ⟨fun e h => (all e h).1, ⟨small, fun e h => (all e h).2⟩, here⟩
  · rintro ⟨typed, ⟨small, fits⟩, here⟩
    obtain ⟨ran, whole⟩ := reads_segment.whole.mpr ⟨⟨⟨small, fun e h => ⟨typed e h, fits e h⟩⟩, here⟩, rfl⟩
    exact ⟨_, ran, by simp only [ne_eq, not_true_eq_false, if_false]; rfl⟩

theorem decode_canonical (bytes : List UInt8) (entries : List GroupMetadataEntry) :
    decode bytes = .ok entries ↔
      (∀ entry ∈ entries, EntryTyped entry) ∧ encode entries = .ok bytes := by
  rw [decode_eq_ok, encode_eq_ok]

theorem decode_extended {bytes more : List UInt8} {entries others : List GroupMetadataEntry}
    (whole : decode bytes = .ok entries) (longer : decode (bytes ++ more) = .ok others) :
    more = [] := by
  have front (bytes : List UInt8) (entries : List GroupMetadataEntry)
      (h : decode bytes = .ok entries) : (entries.length < 2 ^ 32 ∧
        ∀ entry ∈ entries, EntryTyped entry ∧ RecordFits entry.record) ∧
          bytes = segmentImage entries := by
    obtain ⟨typed, ⟨small, fits⟩, here⟩ := decode_eq_ok.mp h
    exact ⟨⟨small, fun e h => ⟨typed e h, fits e h⟩⟩, here⟩
  exact reads_segment.whole_of_front (front bytes entries whole) (front (bytes ++ more) others longer)

/-- A list that encodes is read back, what is read back encodes to the bytes it was read
from, and neither a part of a segment nor more than one is read as another. -/
theorem segment_reads_back (bytes : List UInt8) (entries : List GroupMetadataEntry)
    (typed : ∀ entry ∈ entries, EntryTyped entry) :
    (decode bytes = .ok entries ↔ encode entries = .ok bytes) ∧
    (∀ other, decode bytes = .ok other → encode other = .ok bytes) ∧
    ∀ more others, decode bytes = .ok entries → decode (bytes ++ more) = .ok others → more = [] := by
  refine ⟨?_, ?_, ?_⟩
  · rw [decode_canonical]
    exact and_iff_right typed
  · intro other h
    exact ((decode_canonical bytes other).mp h).2
  · intro more others whole longer
    exact decode_extended whole longer

/-- One record of each kind, a roster of two members and a roster cleared among them. -/
def fourRecords : List GroupMetadataEntry :=
  [⟨1, .offsetCommitted ⟨"g"⟩ ⟨"t"⟩ 0 (-1)⟩, ⟨2, .groupTransitioned ⟨"g"⟩ .joinBarrierComplete⟩,
    ⟨3, .groupRosterUpdated ⟨"g"⟩ (some ⟨"consumer", "range", ["m0", "m1"]⟩)⟩,
    ⟨4, .groupRosterUpdated ⟨"g"⟩ none⟩]

theorem segment_reads_back_four : ∃ bytes, encode fourRecords = .ok bytes ∧
    decode bytes = .ok fourRecords := by
  have typed : ∀ entry ∈ fourRecords, EntryTyped entry := by
    simp [fourRecords, EntryTyped, RecordTyped, TopicId.Typed]
  have fits : SegmentFits fourRecords := by
    simp only [fourRecords, SegmentFits, RecordFits, RosterFits, Short, List.forall_mem_cons]
    refine ⟨by decide, by decide, by decide, ⟨by decide, ?_⟩, ⟨by decide, by rintro _ ⟨⟩⟩,
      by rintro _ ⟨⟩⟩
    rintro _ ⟨⟩
    decide
  have written := encode_eq_ok.mpr ⟨fits, rfl⟩
  exact ⟨_, written, (segment_reads_back _ fourRecords typed).1.mpr written⟩

end GroupSegment

end Oqueue
