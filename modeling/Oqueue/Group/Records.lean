import Oqueue.Core.GroupSegment
import Oqueue.Library.Table
import Oqueue.Log.Segments

/-!
# What the group log's records do

The coordinator's records and rosters, the committed offsets, and the log's entries.
-/

namespace Oqueue

structure GroupCoordinator where
  groups : Finmap fun _ : GroupId => GroupRecord := ∅
  rosters : Finmap fun _ : GroupId => GroupRosterSnapshot := ∅
  deriving DecidableEq

namespace GroupCoordinator

def record (self : GroupCoordinator) (group : GroupId) : Option GroupRecord :=
  self.groups.lookup group

def transition (self : GroupCoordinator) (group : GroupId) (event : GroupEvent) :
    Except Error (GroupCoordinator × GroupRecord) := do
  let record ← ((self.record group).getD .fresh).transition event
  return ({ self with groups := self.groups.insert group record }, record)

def roster (self : GroupCoordinator) (group : GroupId) : Option GroupRosterSnapshot :=
  self.rosters.lookup group

def setRoster (self : GroupCoordinator) (group : GroupId) :
    Option GroupRosterSnapshot → GroupCoordinator
  | some roster => { self with rosters := self.rosters.insert group roster }
  | none => { self with rosters := self.rosters.erase group }

end GroupCoordinator

abbrev OffsetKey := GroupId × TopicId × Int

abbrev VersionedOffset := Nat × Int

abbrev Offsets := Finmap fun _ : OffsetKey => VersionedOffset

def GroupMetadataRecord.apply (self : GroupMetadataRecord) (version : Nat) (offsets : Offsets) :
    Offsets :=
  match self with
  | .offsetCommitted group topic partition offset =>
    -- an entry of a higher version may have been applied first
    if (offsets.lookup (group, topic, partition)).any fun held => decide (version ≤ held.1) then
      offsets
    else offsets.insert (group, topic, partition) (version, offset)
  | _ => offsets

def GroupMetadataRecord.committed : GroupMetadataRecord → Option (OffsetKey × Int)
  | .offsetCommitted group topic partition offset => some ((group, topic, partition), offset)
  | _ => none

theorem GroupMetadataRecord.lookup_apply (self : GroupMetadataRecord) (version : Nat)
    (offsets : Offsets) (key : OffsetKey) : (self.apply version offsets).lookup key =
      match self.committed with
      | some (place, offset) =>
        if key = place ∧ ∀ held, offsets.lookup place = some held → held.1 < version then
          some (version, offset)
        else offsets.lookup key
      | none => offsets.lookup key := by
  cases self with
  | groupTransitioned group event => rfl
  | groupRosterUpdated group roster => rfl
  | offsetCommitted group topic partition offset =>
    unfold apply
    dsimp only [committed]
    cases hheld : offsets.lookup (group, topic, partition) with
    | none =>
      simp only [Option.any_none, Bool.false_eq_true, if_false, Table.lookup_insert_eq]
      by_cases same : key = (group, topic, partition)
      · rw [if_pos same, if_pos ⟨same, fun held h => by cases h⟩]
      · rw [if_neg same, if_neg fun h => same h.1]
    | some held =>
      by_cases stale : version ≤ held.1
      · simp only [Option.any_some, stale, decide_true, if_true]
        rw [if_neg]
        rintro ⟨-, fresher⟩
        exact Nat.not_lt.mpr stale (fresher held rfl)
      · simp only [Option.any_some, stale, decide_false, Bool.false_eq_true, if_false,
          Table.lookup_insert_eq]
        by_cases same : key = (group, topic, partition)
        · rw [if_pos same, if_pos ⟨same, fun other h => by
            cases h
            exact Nat.not_le.mp stale⟩]
        · rw [if_neg same, if_neg fun h => same h.1]

namespace GroupLog

/-- A record as the source's types hold it. -/
abbrev Record := { record : GroupMetadataRecord // GroupSegment.RecordTyped record }

abbrev Entry := { entry : GroupMetadataEntry // GroupSegment.EntryTyped entry }

def groupSegments : Log.SegmentFormat Entry where
  encode entries := GroupSegment.encode (entries.map Subtype.val)
  decode bytes := match h : GroupSegment.decode bytes with
    | .ok entries => .ok (entries.attachWith _ (GroupSegment.decode_eq_ok.mp h).1)
    | .error e => .error e
  version entry := entry.val.version
  decode_encode := by
    intro entries bytes encoded
    have typed : ∀ entry ∈ entries.map Subtype.val, GroupSegment.EntryTyped entry := by
      intro entry h
      obtain ⟨⟨_, typed⟩, -, rfl⟩ := List.mem_map.mp h
      exact typed
    have decoded := (GroupSegment.decode_canonical _ _).mpr ⟨typed, encoded⟩
    split
    · rename_i found h
      rw [decoded] at h
      cases h
      congr 1
      exact List.map_injective_iff.mpr Subtype.val_injective (by simp)
    · rename_i e h
      rw [decoded] at h
      cases h

theorem typed_first (record : Record) : GroupSegment.EntryTyped ⟨0, record.val⟩ :=
  ⟨Nat.two_pow_pos 64, record.property⟩

theorem typed_after {last : Nat} (h : last + 1 ≤ u64Max) (record : Record) :
    GroupSegment.EntryTyped ⟨last + 1, record.val⟩ := by
  refine ⟨?_, record.property⟩
  unfold u64Max at h
  dsimp only
  omega

def nextEntry (last : Option Nat) (record : Record) : Except Error Entry :=
  match last with
  | none => .ok ⟨⟨0, record.val⟩, typed_first record⟩
  | some last =>
    if h : last + 1 ≤ u64Max then
      .ok ⟨⟨last + 1, record.val⟩, typed_after h record⟩
    else .error (.commitVersionOverflow last 1)

end GroupLog

end Oqueue
