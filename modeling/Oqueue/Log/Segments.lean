import Oqueue.Library.Search
import Oqueue.Core.SegmentFormat

/-!
# A log of segments in object storage

One segment object per append, written only if absent; base objects, which say
where the live segments begin; and the snapshots the bases name. An operation is
cut where it waits on the store, and each request it makes is one step of the
store. Keys are relative to the log's prefix.
-/

namespace Oqueue.Log

/-- How entries become a segment's bytes and back. -/
structure SegmentFormat (Entry : Type) where
  encode : List Entry → Except Error (List UInt8)
  decode : List UInt8 → Except Error (List Entry)
  version : Entry → Nat
  decode_encode : ∀ {entries bytes}, encode entries = .ok bytes → decode bytes = .ok entries

/-- The format the log writes its own entries in. -/
def metadataSegments : SegmentFormat { entry : MetadataEntry // entry.Typed } where
  encode entries := encodeSegment (entries.map Subtype.val)
  decode bytes := match h : decodeSegment bytes with
    | .ok entries => .ok (entries.attachWith _ (decodeSegment_eq_ok.mp h).1)
    | .error e => .error e
  version entry := entry.val.version
  decode_encode := by
    intro entries bytes encoded
    have typed : ∀ entry ∈ entries.map Subtype.val, entry.Typed := by
      intro entry h
      obtain ⟨⟨_, typed⟩, -, rfl⟩ := List.mem_map.mp h
      exact typed
    have decoded := decodeSegment_eq_ok.mpr ⟨typed, encodeSegment_eq_ok.mp encoded⟩
    split
    · rename_i found h
      rw [decoded] at h
      cases h
      congr 1
      exact List.map_injective_iff.mpr Subtype.val_injective (by simp)
    · rename_i e h
      rw [decoded] at h
      cases h

/-- Where a log begins: its lowest live segment, and the snapshot of everything
before it, named by the last version it holds. -/
structure Base where
  seq : Nat
  snapshot : Option Nat
  deriving DecidableEq, Repr

inductive Key where
  | segment (seq : Nat)
  | base (generation : Nat)
  | snap (version : Nat)
  deriving DecidableEq, Repr

/-- A number as the keys spell it, zero-padded to twenty digits. -/
def padded (number : Nat) : String :=
  String.ofList ((Nat.toDigits 10 number).leftpad 20 '0')

def Key.text : Key → String
  | segment seq => "/log/" ++ padded seq
  | base generation => "/base/" ++ padded generation
  | snap version => "/snap/" ++ padded version

structure Store where
  segments : Nat → Option (List UInt8) := fun _ => none
  bases : Nat → Option Base := fun _ => none
  snaps : Nat → Option (List UInt8) := fun _ => none

namespace Store

def setSegment (self : Store) (seq : Nat) (payload : Option (List UInt8)) : Store :=
  { self with segments := Function.update self.segments seq payload }

def setBase (self : Store) (generation : Nat) (base : Base) : Store :=
  { self with bases := Function.update self.bases generation (some base) }

def setSnap (self : Store) (version : Nat) (payload : Option (List UInt8)) : Store :=
  { self with snaps := Function.update self.snaps version payload }

def delete (self : Store) : Key → Store
  | .segment seq => self.setSegment seq none
  | .snap version => self.setSnap version none
  | .base generation => { self with bases := Function.update self.bases generation none }

end Store

def searchProbes : Nat := 128

def next (seq : Nat) : Except Error Nat := CommitVersion.advance seq 1

/-- What has been read or appended, and where the next segment goes. -/
structure State (Entry : Type) where
  nextSeq : Nat
  entries : List Entry
  generation : Option Nat
  baseSeq : Nat
  snapshot : Option Nat
  unsnapshottedBytes : Nat
  deriving DecidableEq, Repr

variable {Entry : Type} (F : SegmentFormat Entry)

def lastVersion (entries : List Entry) : Option Nat := entries.getLast?.map F.version

/-- Refuses versions that do not strictly increase from `last`. -/
def validate : List Entry → Option Nat → Except Error Unit
  | [], _ => .ok ()
  | entry :: rest, some previous =>
    if F.version entry ≤ previous then
      .error (.nonMonotonicCommitVersion previous (F.version entry))
    else validate rest (some (F.version entry))
  | entry :: rest, none => validate rest (some (F.version entry))

/-- Where an `open` waits: the newest base, its snapshot, the segments after it,
and the newest base once more. -/
inductive Opening (Entry : Type) where
  | basing (search : Search Base)
  | snapshotting (generation : Option Nat) (base : Base) (snapshot : Nat)
  | walking (generation : Option Nat) (base : Base) (entries : List Entry) (seq : Nat)
  | confirming (generation : Option Nat) (base : Base) (entries : List Entry) (seq : Nat)
      (search : Search Base)
  deriving DecidableEq, Repr

namespace Opening

/-- `walk`, up to its first request. -/
def walk (generation : Option Nat) (base : Base) : Opening Entry :=
  match base.snapshot with
  | some snapshot => snapshotting generation base snapshot
  | none => walking generation base [] base.seq

/-- What a base's snapshot, or a segment past what is read, adds. -/
def extended (entries : List Entry) (bytes : List UInt8) : Except Error (List Entry) := do
  let segment ← F.decode bytes
  validate F segment (lastVersion F entries)
  return entries ++ segment

def serve (store : Store) : Opening Entry → Opening Entry ⊕ Except Error (State Entry)
  | basing search =>
    match search.resume (2 ^ 64) searchProbes (store.bases search.probe) with
    | .ask search => .inl (basing search)
    | .found none => .inl (walk none ⟨0, none⟩)
    | .found (some (generation, base)) => .inl (walk (some generation) base)
    | .overflow absent => .inr (.error (.commitVersionOverflow absent absent))
    | .spun => .inr (.error (.malformedMetadataSegment 0))
  | snapshotting generation base snapshot =>
    match store.snaps snapshot with
    | none => .inr (.error (.objectNotFound ⟨(Key.snap snapshot).text⟩))
    | some bytes => match extended F [] bytes with
      | .error refusal => .inr (.error refusal)
      | .ok entries => .inl (walking generation base entries base.seq)
  | walking generation base entries seq =>
    match store.segments seq with
    | none => .inl (confirming generation base entries seq .first)
    | some bytes => match extended F entries bytes, next seq with
      | .error refusal, _ => .inr (.error refusal)
      | .ok _, .error refusal => .inr (.error refusal)
      | .ok entries, .ok seq => .inl (walking generation base entries seq)
  | confirming generation base entries seq search =>
    match search.resume (2 ^ 64) searchProbes (store.bases search.probe) with
    | .ask search => .inl (confirming generation base entries seq search)
    | .found newest =>
      -- a base that moved under the walk may have taken segments with it
      if newest.map Prod.fst ≠ generation then .inl (basing .first)
      else .inr (.ok ⟨seq, entries, generation, base.seq, base.snapshot, 0⟩)
    | .overflow absent => .inr (.error (.commitVersionOverflow absent absent))
    | .spun => .inr (.error (.malformedMetadataSegment 0))

end Opening

/-- A segment on its way to the store. -/
structure Append (Entry : Type) where
  seq : Nat
  entries : List Entry
  payload : List UInt8
  deriving DecidableEq, Repr

/-- What a checkpoint took from the state under the lock. -/
structure Capture where
  seq : Nat
  generation : Nat
  oldBase : Nat
  oldSnapshot : Option Nat
  payload : List UInt8
  last : Nat
  deriving DecidableEq, Repr

/-- Where a `checkpoint` waits, on the store or on an answer to act upon. -/
inductive Checkpoint where
  | snapping (capture : Capture)
  | snapped (capture : Capture)
  | tailing (capture : Capture) (tail : Nat)
  | basing (capture : Capture)
  | based (capture : Capture)
  | retiring (retired : List Key)
  deriving DecidableEq, Repr

namespace State

/-- `append`, up to its request; nothing to append is done at once. -/
def append (self : State Entry) (entries : List Entry) : Except Error (Option (Append Entry)) :=
  if entries.isEmpty then .ok none
  else do
    validate F entries (lastVersion F self.entries)
    let payload ← F.encode entries
    return some ⟨self.nextSeq, entries, payload⟩

/-- `append`, once its write was answered. -/
def appended (self : State Entry) (append : Append Entry) : Except Error (State Entry) := do
  let nextSeq ← next append.seq
  return { self with
    nextSeq
    entries := self.entries ++ append.entries
    unsnapshottedBytes := min u64Max (self.unsnapshottedBytes + append.payload.length) }

/-- `checkpoint`, up to its first request. -/
def capture (self : State Entry) : Except Error (Option Capture) :=
  match lastVersion F self.entries with
  | none => .ok none
  | some last =>
    if self.nextSeq = self.baseSeq then .ok none
    else do
      let generation ← self.generation.elim (.ok 0) next
      let payload ← F.encode self.entries
      return some ⟨self.nextSeq, generation, self.baseSeq, self.snapshot, payload, last⟩

def checkpointed (self : State Entry) (capture : Capture) : State Entry :=
  { self with
    generation := some capture.generation
    baseSeq := capture.seq
    snapshot := some capture.last
    unsnapshottedBytes := 0 }

def readFrom (self : State Entry) (start maxEntries : Nat) : List Entry :=
  (self.entries.filter fun entry => start ≤ F.version entry).take maxEntries

end State

/-- The segments a capture folded, and the snapshot it replaces. -/
def Capture.retired (self : Capture) : List Key :=
  ((List.range' self.oldBase (self.seq - self.oldBase)).map .segment) ++
    ((self.oldSnapshot.filter fun old => old ≠ self.last).map Key.snap).toList

namespace Store

def putSegment (self : Store) (append : Append Entry) : Option Store :=
  if (self.segments append.seq).isNone then some (self.setSegment append.seq (some append.payload))
  else none

/-- The store serves the request a checkpoint waits on. -/
def serveCheckpoint (self : Store) : Checkpoint → Option (Store × (Checkpoint ⊕ Error))
  | .snapping capture =>
    -- already present is fine: the same entries were written under the same key
    some (if (self.snaps capture.last).isNone then self.setSnap capture.last (some capture.payload)
      else self, .inl (.snapped capture))
  | .tailing capture tail =>
    some (self, if (self.segments tail).isNone then .inl (.basing capture)
      else .inr (.preconditionFailed (Key.segment tail).text))
  | .basing capture =>
    if (self.bases capture.generation).isNone then
      some (self.setBase capture.generation ⟨capture.seq, some capture.last⟩, .inl (.based capture))
    else some (self, .inr (.preconditionFailed (Key.base capture.generation).text))
  | _ => none

end Store

def State.resume (self : State Entry) : Checkpoint → Option (State Entry × Checkpoint)
  -- the tail now, so that appends since the capture are not another writer's
  | .snapped capture => some (self, .tailing capture self.nextSeq)
  | .based capture => some (self.checkpointed capture, .retiring capture.retired)
  | _ => none

end Oqueue.Log
