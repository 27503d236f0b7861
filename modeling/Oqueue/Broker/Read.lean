import Oqueue.Codec.Batch
import Oqueue.Core.PartitionManifest
import Oqueue.Index.Page

/-!
# The read path

What a fetch is answered with: the manifest tier first, then what the index
still names, each batch fetched at most once a request and stamped with its
offset. The budget is spent as it is learned.
-/

namespace Oqueue.Broker

open Codec Checked

def maxManifestHops : Nat := 16
def maxFailedFetchesPerRequest : Nat := 2

/-- What the read path is given: the index, the store's objects, and the region
of a whole object that the topic's key domain lets a partition have. -/
structure Cluster where
  index : IndexState
  store : ObjectKey → ByteRange → Except Error (List UInt8)
  sliceRegion : TopicId → Nat → List UInt8 → Except Error (List UInt8)

structure Allowance where
  bytes : Nat
  mayOvershoot : Bool

/-- Every object one request has already pulled, failures too. -/
structure FetchedObjects where
  seen : Finmap fun _ : ObjectKey × ByteRange => Except Error (List UInt8) := ∅
  failed : Nat := 0

namespace FetchedObjects

def noteFailure (self : FetchedObjects) : FetchedObjects := { self with failed := self.failed + 1 }

/-- The object at `key` over `range`, and whether this call issued the GET. -/
def get (self : FetchedObjects) (cluster : Cluster) (key : ObjectKey) (range : ByteRange) :
    (Except Error (List UInt8) × Bool) × FetchedObjects :=
  match self.seen.lookup (key, range) with
  | some seen => ((seen, false), self)
  | none =>
    if maxFailedFetchesPerRequest ≤ self.failed then ((.error .slowDown, false), self)
    else
      let fetched := cluster.store key range
      ((fetched, true), {
        seen := self.seen.insert (key, range) fetched
        failed := match fetched with
          | .ok _ => self.failed
          | .error _ => self.failed + 1 })

end FetchedObjects

/-- One batch's bytes, what fetching them cost, and whether a GET was issued. -/
structure Fetched where
  blob : Except Error (List UInt8)
  cost : Nat
  missed : Bool

/-- What resolving a manifest produced, and what it cost. -/
structure Resolved where
  batches : Except Error (List IndexedBatch)
  cost : Nat

def costOf (missed : Bool) (bytes : List UInt8) : Nat := if missed then bytes.length else 0

def inlineBatch (entry : ManifestEntry) : IndexedBatch :=
  .inline ⟨⟨entry.object, entry.baseOffset, entry.recordCount⟩, entry.bytes⟩

/-- A manifest's entries from a position on that begin below `upto`. -/
def entriesBelow (manifest : PartitionManifest) (position upto : Nat) : List ManifestEntry :=
  (manifest.entries.drop position).takeWhile fun entry => entry.baseOffset < upto

/-- Whether an offset is older than everything a manifest lists. -/
def olderThan (manifest : PartitionManifest) (start : Nat) : Bool :=
  manifest.entries.head?.any fun first => decide (start < first.baseOffset)

namespace Cluster

/-- The batches a fetch from `start` reads out of a manifest chain, with so many
links still to be followed. -/
def manifestBatches (self : Cluster) (start upto : Nat) :
    Nat → ObjectKey → Nat → FetchedObjects → Resolved × FetchedObjects
  | 0, _, cost, objects => (⟨.error .indexObjectMismatch, cost⟩, objects)
  | hops + 1, key, cost, objects =>
    match objects.get self key .full with
    | ((.error error, _), objects) => (⟨.error error, cost⟩, objects)
    | ((.ok bytes, missed), objects) =>
      let cost := cost + costOf missed bytes
      match parsePartitionManifest bytes with
      | .error error => (⟨.error error, cost⟩, objects)
      | .ok parsed =>
        match parsed.position start with
        | some position =>
          (⟨.ok (((entriesBelow parsed position upto).take maxBatchesPerPage).map inlineBatch),
            cost⟩, objects)
        | none =>
          match parsed.previous.filter fun _ => olderThan parsed start with
          | none => (⟨.ok [], cost⟩, objects)
          | some previous => manifestBatches self start upto hops previous cost objects

/-- One batch's bytes: a ranged read, or a whole object and its partition's region. -/
def oneBatch (self : Cluster) (topic : TopicId) (partition : Nat) (objects : FetchedObjects) :
    IndexedBatch → Fetched × FetchedObjects
  | .inline entry =>
    match objects.get self entry.reference.object entry.bytes with
    | ((.ok blob, missed), objects) => (⟨.ok blob, costOf missed blob, missed⟩, objects)
    | ((.error error, missed), objects) => (⟨.error error, 0, missed⟩, objects)
  | .footer object =>
    match objects.get self object.object .full with
    | ((.error error, missed), objects) => (⟨.error error, 0, missed⟩, objects)
    | ((.ok whole, missed), objects) =>
      match self.sliceRegion topic partition whole with
      | .ok blob => (⟨.ok blob, costOf missed whole, missed⟩, objects)
      | .error error => (⟨.error error, costOf missed whole, missed⟩,
          if missed then objects.noteFailure else objects)

end Cluster

/-- The batches a read served, each with its stamped bytes, and what it cost. -/
structure Read where
  served : List (IndexedBatch × List UInt8)
  fetched : Nat

def recordsOf (served : List (IndexedBatch × List UInt8)) : List UInt8 := served.flatMap Prod.snd

def Read.records (self : Read) : List UInt8 := recordsOf self.served

structure ReadFailure where
  error : Error
  fetched : Nat
  deriving DecidableEq, Repr

namespace Cluster

/-- The walk over a page. A miss after the first batch ends the read and does
not undo it; an object that cannot be stamped fails it. -/
def readPage (self : Cluster) (topic : TopicId) (partition : Nat) (allowance : Allowance) :
    List IndexedBatch → List (IndexedBatch × List UInt8) → Nat → FetchedObjects →
      Except ReadFailure Read × FetchedObjects
  | [], served, fetched, objects => (.ok ⟨served, fetched⟩, objects)
  | batch :: rest, served, fetched, objects =>
    if allowance.bytes ≤ max fetched (recordsOf served).length ∧
        ¬ ((recordsOf served).isEmpty ∧ allowance.mayOvershoot) then
      (.ok ⟨served, fetched⟩, objects)
    else
      let (fetch, objects) := self.oneBatch topic partition objects batch
      let fetched := fetched + fetch.cost
      match fetch.blob with
      | .error error =>
        if (recordsOf served).isEmpty then (.error ⟨error, fetched⟩, objects)
        else (.ok ⟨served, fetched⟩, objects)
      | .ok blob =>
        match rewriteBaseOffset blob batch.reference.baseOffset 0 with
        | .error _ => (.error ⟨.indexObjectMismatch, fetched⟩,
            if fetch.missed then objects.noteFailure else objects)
        | .ok stamped =>
          readPage self topic partition allowance rest (served ++ [(batch, stamped)]) fetched objects

/-- The manifest tier's batches; a partition with nothing to spend touches no store. -/
def manifestPage (self : Cluster) (topic : TopicId) (partition start : Nat) (allowance : Allowance)
    (objects : FetchedObjects) : Resolved × FetchedObjects :=
  match self.index.manifest (topic, partition) with
  | some (key, upto) =>
    if start < upto ∧ (allowance.bytes ≠ 0 ∨ allowance.mayOvershoot) then
      self.manifestBatches start upto maxManifestHops key 0 objects
    else (⟨.ok [], 0⟩, objects)
  | none => (⟨.ok [], 0⟩, objects)

/-- Every batch this partition holds from `start`, stamped, within the allowance. -/
def read (self : Cluster) (topic : TopicId) (partition start : Nat) (allowance : Allowance)
    (objects : FetchedObjects) : Except ReadFailure Read × FetchedObjects :=
  let (resolved, objects) := self.manifestPage topic partition start allowance objects
  match resolved.batches with
  | .error error => (.error ⟨error, resolved.cost⟩, objects)
  | .ok fromManifest =>
    match self.index.findBatches (topic, partition) start allowance.bytes with
    | .error error => (.error ⟨error, resolved.cost⟩, objects)
    | .ok fromIndex =>
      self.readPage topic partition allowance (fromManifest ++ fromIndex) [] resolved.cost objects

end Cluster

end Oqueue.Broker
