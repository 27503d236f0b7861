import Oqueue.Core.Coverage
import Oqueue.Library.Reader

/-!
# A partition's history as an object

A manifest lists one partition's objects in offset order and names the manifest
it spilled from. The parser checks again that the entries leave no gap, since
the builder cannot reach bytes that are already stored.
-/

namespace Oqueue

open Bytes Checked Tiling Reader

def partitionManifestVersion : Nat := 1

/-- The ASCII of "OQPM". -/
def partitionManifestMagic : List UInt8 := [0x4F, 0x51, 0x50, 0x4D]

def partitionManifestTrailerLen : Nat := 4 + 1 + 4 + 4

/-- One object this partition has records in, and where inside it they are. -/
structure ManifestEntry where
  object : ObjectKey
  baseOffset : Nat
  recordCount : Nat
  bytes : ByteRange
  deriving DecidableEq, Repr

namespace ManifestEntry

def new (object : ObjectKey) (baseOffset recordCount : Nat) (bytes : ByteRange) :
    Except Error ManifestEntry :=
  if recordCount = 0 then .error .emptyBundle
  else if bytes = .full then .error .unboundedRegion
  else .ok ⟨object, baseOffset, recordCount, bytes⟩

def endOffset (self : ManifestEntry) : Except Error Nat :=
  Offset.add self.baseOffset self.recordCount

def stop (self : ManifestEntry) : Nat := self.baseOffset + self.recordCount

theorem endOffset_eq_ok {e : ManifestEntry} {o : Nat} :
    e.endOffset = .ok o ↔ o = e.stop ∧ e.stop ≤ i64Max := Offset.add_eq_ok

end ManifestEntry

abbrev EntryTiles (entries : List ManifestEntry) (low high : Nat) : Prop :=
  Tiles ManifestEntry.baseOffset ManifestEntry.stop entries low high

structure PartitionManifest where
  entries : List ManifestEntry
  previous : Option ObjectKey
  deriving DecidableEq, Repr

namespace PartitionManifest

/-- Where the entry holding `offset` is. The entries are in offset order, so the
search for the first one past it is the length of the run below. -/
def position (self : PartitionManifest) (offset : Nat) : Option Nat :=
  let past := (self.entries.takeWhile fun entry => entry.baseOffset ≤ offset).length
  if past = 0 then none
  else match self.entries[past - 1]? with
    | none => none
    | some entry => match entry.endOffset with
      | .ok stop => if offset < stop then some (past - 1) else none
      | .error _ => none

theorem position_eq_some {m : PartitionManifest} {offset found : Nat}
    (h : m.position offset = some found) :
    ∃ entry, m.entries[found]? = some entry ∧ entry.baseOffset ≤ offset ∧
      offset < entry.stop := by
  unfold position at h
  dsimp only at h
  split at h
  · cases h
  · rename_i some
    split at h
    · cases h
    · rename_i entry hentry
      split at h
      · rename_i stop hstop
        obtain ⟨rfl, -⟩ := ManifestEntry.endOffset_eq_ok.mp hstop
        split at h
        · cases h
          refine ⟨entry, hentry, ?_, by assumption⟩
          obtain ⟨rest, hrest⟩ := List.takeWhile_prefix (l := m.entries)
            (fun entry => decide (entry.baseOffset ≤ offset))
          have among : ∀ e ∈ m.entries.takeWhile (fun entry => entry.baseOffset ≤ offset),
              e.baseOffset ≤ offset := fun e he => by simpa using List.mem_takeWhile_imp he
          generalize m.entries.takeWhile (fun entry => entry.baseOffset ≤ offset) = run at *
          rw [← hrest, List.getElem?_append_left (by omega)] at hentry
          exact among entry (List.mem_of_getElem? hentry)
        · cases h
      · cases h

theorem position_reaches {m : PartitionManifest} {offset found : Nat}
    (h : m.position offset = some found) :
    ∃ entry, m.entries[found]? = some entry ∧ entry.stop ≤ i64Max := by
  unfold position at h
  dsimp only at h
  split at h
  · cases h
  · split at h
    · cases h
    · rename_i entry hentry
      split at h
      · rename_i stop hstop
        obtain ⟨rfl, fits⟩ := ManifestEntry.endOffset_eq_ok.mp hstop
        split at h
        · cases h
          exact ⟨entry, hentry, fits⟩
        · cases h
      · cases h

theorem position_of_holds {m : PartitionManifest} {low high offset : Nat}
    (tiles : EntryTiles m.entries low high) {entry : ManifestEntry} (hentry : entry ∈ m.entries)
    (holds : entry.baseOffset ≤ offset ∧ offset < entry.stop) (fits : entry.stop ≤ i64Max) :
    ∃ position, m.position offset = some position := by
  obtain ⟨before, after, hsplit⟩ := List.append_of_mem hentry
  rw [hsplit] at tiles
  obtain ⟨middle, hbefore, hrest⟩ := Tiles.append_iff.mp tiles
  have begins : entry.baseOffset = middle := hrest.1
  have below : ∀ e ∈ before, decide (e.baseOffset ≤ offset) = true := by
    intro e he
    have := hbefore.bounds he
    simp only [decide_eq_true_eq]
    omega
  have above : after.takeWhile (fun e => decide (e.baseOffset ≤ offset)) = [] := by
    cases after with
    | nil => rfl
    | cons e after =>
      have : e.baseOffset = entry.stop := hrest.2.2.1
      rw [List.takeWhile_cons_of_neg]
      simp only [decide_eq_true_eq]
      omega
  have run : m.entries.takeWhile (fun e => decide (e.baseOffset ≤ offset)) = before ++ [entry] := by
    rw [hsplit, List.takeWhile_append_of_pos below,
      List.takeWhile_cons_of_pos (by simpa using holds.1), above]
  have found : m.entries[before.length]? = some entry := by
    rw [hsplit, List.getElem?_append_right (Nat.le_refl _), Nat.sub_self]
    rfl
  refine ⟨before.length, ?_⟩
  have ends := ManifestEntry.endOffset_eq_ok.mpr ⟨rfl, fits⟩
  unfold position
  simp only [run, List.length_append, List.length_singleton, Nat.add_sub_cancel, found, ends]
  rw [if_neg (by omega), if_pos holds.2]

end PartitionManifest

/-- Writes a key, or a zero length for no predecessor. -/
def encodeManifestKey (key : Option ObjectKey) : Except Error (List UInt8) :=
  let raw := (key.elim "" ObjectKey.key).toUTF8.data.toList
  if raw.length < 2 ^ 16 then .ok (toBeBytes 2 raw.length ++ raw) else .error .bundleTooLarge

def encodeManifestEntry (entry : ManifestEntry) : Except Error (List UInt8) := do
  let key ← encodeManifestKey (some entry.object)
  match entry.bytes with
  | .full => .error .unboundedRegion
  | .bounded offset length =>
    return key ++ toBeBytes 8 entry.baseOffset ++ toBeBytes 4 entry.recordCount ++
      toBeBytes 8 offset ++ toBeBytes 8 length

/-- Encodes what a builder has collected. -/
def PartitionManifest.seal (self : PartitionManifest) : Except Error (List UInt8) :=
  if self.entries.isEmpty then .error .emptyBundle
  else do
    let previous ← encodeManifestKey self.previous
    let entries ← self.entries.mapM encodeManifestEntry
    let body := previous ++ entries.flatten
    if 2 ^ 32 ≤ body.length ∨ 2 ^ 32 ≤ self.entries.length then .error .bundleTooLarge
    else return body ++ toBeBytes 4 self.entries.length ++
      toBeBytes 1 partitionManifestVersion ++ toBeBytes 4 body.length ++ partitionManifestMagic

def malformedManifest (_ : Nat) (cur : Cursor) : Error := .malformedPartitionManifest cur.pos

/-- So many bytes as UTF-8, or the offset the string started at. -/
def readString (len : Nat) : Read Error String := do
  let cur ← get
  let raw ← take malformedManifest len
  match String.fromUTF8? ⟨raw.toArray⟩ with
  | some text => return text
  | none => throw (.malformedPartitionManifest cur.pos)

def decodeOptionalKey : Read Error (Option ObjectKey) := do
  let len ← unsigned malformedManifest 2
  if len = 0 then return none
  else return some (← ObjectKey.new (← readString len))

def decodeManifestEntry : Read Error ManifestEntry := do
  let cur ← get
  let keyLen ← unsigned malformedManifest 2
  if keyLen = 0 then throw (.malformedPartitionManifest cur.pos)
  else
    let object ← ObjectKey.new (← readString keyLen)
    let baseOffset ← Offset.new (← signed malformedManifest 8)
    let recordCount ← unsigned malformedManifest 4
    let offset ← unsigned malformedManifest 8
    let length ← unsigned malformedManifest 8
    ManifestEntry.new object baseOffset recordCount (← ByteRange.new offset length)

/-- What is checked of an entry against those before it: a new object, and no gap. -/
def checkFollows (entries : List ManifestEntry) (entry : ManifestEntry) (at_ : Nat) :
    Except Error Unit :=
  if entries.any fun held => held.object == entry.object then
    .error (.malformedPartitionManifest at_)
  else match entries.getLast? with
    | none => .ok ()
    | some last => do
      if (← last.endOffset) ≠ entry.baseOffset then .error (.malformedPartitionManifest at_)
      else .ok ()

def decodeEntries : Nat → List ManifestEntry → Read Error (List ManifestEntry)
  | 0, entries => return entries
  | count + 1, entries => do
    let entry ← decodeManifestEntry
    let cur ← get
    let _ ← (checkFollows entries entry cur.pos : Except Error Unit)
    decodeEntries count (entries ++ [entry])

def decodeTrailer : Read Error (Nat × Nat) := do
  let count ← unsigned malformedManifest 4
  let version ← unsigned malformedManifest 1
  if version ≠ partitionManifestVersion then throw (.unknownPartitionManifestVersion version)
  else return (count, ← unsigned malformedManifest 4)

def decodeBody (count trailerAt : Nat) : Read Error PartitionManifest := do
  let previous ← decodeOptionalKey
  let entries ← decodeEntries count []
  let cur ← get
  if cur.pos ≠ trailerAt then throw (.malformedPartitionManifest cur.pos)
  else return ⟨entries, previous⟩

/-- Reads a partition manifest back out of its payload. -/
def parsePartitionManifest (bytes : List UInt8) : Except Error PartitionManifest :=
  if bytes.length < partitionManifestTrailerLen then .error (.malformedPartitionManifest 0)
  else
    let trailerAt := bytes.length - partitionManifestTrailerLen
    if bytes.drop (bytes.length - 4) ≠ partitionManifestMagic then .error .notAPartitionManifest
    else do
      let ((count, bodyLen), _) ← decodeTrailer.run { buf := bytes.drop trailerAt }
      if count = 0 then .error .emptyBundle
      else if bodyLen ≠ trailerAt then .error (.malformedPartitionManifest trailerAt)
      else
        let (manifest, _) ← (decodeBody count trailerAt).run { buf := bytes.take trailerAt }
        return manifest

theorem ManifestEntry.new_eq_ok {object : ObjectKey} {baseOffset recordCount : Nat}
    {bytes : ByteRange} {entry : ManifestEntry}
    (h : ManifestEntry.new object baseOffset recordCount bytes = .ok entry) :
    entry.recordCount ≠ 0 := by
  unfold ManifestEntry.new at h
  split at h
  · cases h
  · split at h
    · cases h
    · cases h
      assumption

theorem decodeManifestEntry_counts {cur cur' : Cursor} {entry : ManifestEntry}
    (h : decodeManifestEntry.run cur = .ok (entry, cur')) : entry.recordCount ≠ 0 := by
  unfold decodeManifestEntry at h
  obtain ⟨_, _, -, h⟩ := Reader.bind_eq_ok.mp h
  obtain ⟨_, _, -, h⟩ := Reader.bind_eq_ok.mp h
  split at h
  · cases h
  · obtain ⟨_, _, -, h⟩ := Reader.bind_eq_ok.mp h
    obtain ⟨_, _, -, h⟩ := Reader.bind_eq_ok.mp h
    obtain ⟨_, _, -, h⟩ := Reader.bind_eq_ok.mp h
    obtain ⟨_, _, -, h⟩ := Reader.bind_eq_ok.mp h
    obtain ⟨_, _, -, h⟩ := Reader.bind_eq_ok.mp h
    obtain ⟨_, _, -, h⟩ := Reader.bind_eq_ok.mp h
    obtain ⟨_, _, -, h⟩ := Reader.bind_eq_ok.mp h
    obtain ⟨_, _, -, h⟩ := Reader.bind_eq_ok.mp h
    exact ManifestEntry.new_eq_ok (Reader.lift_eq_ok.mp h).1

/-- An entry that passes its check continues the entries before it. -/
theorem checkFollows_tiles {entries : List ManifestEntry} {entry : ManifestEntry} {at_ : Nat}
    (tiled : ∃ low high, EntryTiles entries low high) (counts : entry.recordCount ≠ 0)
    (h : checkFollows entries entry at_ = .ok ()) :
    ∃ low high, EntryTiles (entries ++ [entry]) low high := by
  have wide : entry.baseOffset < entry.stop := by
    unfold ManifestEntry.stop
    omega
  unfold checkFollows at h
  split at h
  · cases h
  · split at h
    · rename_i none
      rw [List.getLast?_eq_none_iff] at none
      subst none
      exact ⟨_, _, Tiles.singleton wide⟩
    · rename_i last hlast
      obtain ⟨low, high, htiles⟩ := tiled
      obtain ⟨stop, hstop, h⟩ := bind_eq_ok.mp h
      obtain ⟨rfl, -⟩ := ManifestEntry.endOffset_eq_ok.mp hstop
      split at h
      · cases h
      · rename_i meets
        have ends : last.stop = high := htiles.getLast_hi hlast
        have begins : entry.baseOffset = high := by
          rw [← ends]
          exact (not_not.mp meets).symm
        rw [← begins] at htiles
        exact ⟨low, _, htiles.append (Tiles.singleton wide)⟩

theorem decodeEntries_tiles {count : Nat} {entries out : List ManifestEntry} {cur cur' : Cursor}
    (tiled : ∃ low high, EntryTiles entries low high)
    (h : (decodeEntries count entries).run cur = .ok (out, cur')) :
    ∃ low high, EntryTiles out low high := by
  induction count generalizing entries cur with
  | zero =>
    cases h
    exact tiled
  | succ count ih =>
    unfold decodeEntries at h
    obtain ⟨entry, _, hentry, h⟩ := Reader.bind_eq_ok.mp h
    obtain ⟨cur, _, -, h⟩ := Reader.bind_eq_ok.mp h
    obtain ⟨_, _, hcheck, h⟩ := Reader.bind_eq_ok.mp h
    exact ih (checkFollows_tiles tiled (decodeManifestEntry_counts hentry)
      (Reader.lift_eq_ok.mp hcheck).1) h

theorem decodeEntries_length {count : Nat} {entries out : List ManifestEntry} {cur cur' : Cursor}
    (h : (decodeEntries count entries).run cur = .ok (out, cur')) :
    out.length = entries.length + count := by
  induction count generalizing entries cur with
  | zero =>
    cases h
    rfl
  | succ count ih =>
    unfold decodeEntries at h
    obtain ⟨entry, _, -, h⟩ := Reader.bind_eq_ok.mp h
    obtain ⟨cur, _, -, h⟩ := Reader.bind_eq_ok.mp h
    obtain ⟨_, _, -, h⟩ := Reader.bind_eq_ok.mp h
    have := ih h
    rw [List.length_append, List.length_singleton] at this
    omega

/-- What the parser accepts lists something, leaves no gap and overlaps nowhere. -/
theorem parsePartitionManifest_tiles {bytes : List UInt8} {manifest : PartitionManifest}
    (h : parsePartitionManifest bytes = .ok manifest) :
    manifest.entries ≠ [] ∧ ∃ low high, EntryTiles manifest.entries low high := by
  unfold parsePartitionManifest at h
  split at h
  · cases h
  · dsimp only at h
    split at h
    · cases h
    · obtain ⟨⟨⟨count, bodyLen⟩, _⟩, -, h⟩ := bind_eq_ok.mp h
      dsimp only at h
      split at h
      · cases h
      · rename_i some
        split at h
        · cases h
        · obtain ⟨⟨manifest, _⟩, hbody, h⟩ := bind_eq_ok.mp h
          cases h
          unfold decodeBody at hbody
          obtain ⟨previous, _, -, hbody⟩ := Reader.bind_eq_ok.mp hbody
          obtain ⟨entries, _, hentries, hbody⟩ := Reader.bind_eq_ok.mp hbody
          obtain ⟨cur, _, -, hbody⟩ := Reader.bind_eq_ok.mp hbody
          split at hbody
          · cases hbody
          · cases hbody
            refine ⟨?_, @decodeEntries_tiles _ [] _ _ _ ⟨0, 0, rfl⟩ hentries⟩
            have counted := decodeEntries_length hentries
            have positive : 0 < entries.length := by
              rw [counted]
              simpa using Nat.pos_of_ne_zero some
            exact List.ne_nil_of_length_pos positive

end Oqueue
