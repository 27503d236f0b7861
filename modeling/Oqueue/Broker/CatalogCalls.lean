import Oqueue.Broker.CatalogPages
import Oqueue.Library.Interleaved

/-!
# The catalog's calls, request by request

Any number of nodes share the store that holds the catalog; a call is cut where it waits
for the store. A topic is published under its name, then under its id; a tombstone hides
it before its objects are deleted. A batch of deletions is no single step: its keys go one
at a time, in any order.
-/

namespace Oqueue.Broker

open Segment Bytes Hex

inductive CatalogKey where
  | topic (name : TopicId)
  | id (uuid : BitVec 128)
  | owner (creator : Principal) (name : TopicId)
  | tombstone (name : TopicId)
  | retention (name : TopicId)
  deriving DecidableEq, Repr

namespace CatalogKey

def topics (stem : List UInt8) : List UInt8 := stem ++ utf8 "/topic/"

def ownerPrefix (stem : List UInt8) (creator : Principal) : List UInt8 :=
  stem ++ utf8 "/owner/" ++ hex (utf8 creator) ++ utf8 "/"

/-- The key in the store, under the shard's catalog prefix. -/
def bytes (stem : List UInt8) : CatalogKey → List UInt8
  | .topic name => topics stem ++ hex (utf8 name.name)
  | .id uuid => stem ++ utf8 "/id/" ++ hex (toBeBytes 16 uuid.toNat)
  | .owner creator name => ownerPrefix stem creator ++ hex (utf8 name.name)
  | .tombstone name => stem ++ utf8 "/tombstone/" ++ hex (utf8 name.name)
  | .retention name => stem ++ utf8 "/config/" ++ hex (utf8 name.name)

end CatalogKey

/-- The catalog's objects; and, for each name, which call put the first entry that no tombstone
hid, and which call put its tombstone. -/
structure CatalogStore where
  objects : AList fun _ : CatalogKey => List UInt8 := ∅
  founder : AList fun _ : TopicId => Nat := ∅
  burier : AList fun _ : TopicId => Nat := ∅

inductive CatalogRequest where
  | get (key : CatalogKey)
  /-- Writes an object that must not be there. -/
  | putAbsent (key : CatalogKey) (body : List UInt8)
  /-- Deletes one key of a batch. -/
  | deleteOne (batch : List CatalogKey)
  | list (stem : List UInt8) (after : Option (List UInt8)) (limit : Nat)

/-- What a request that is served returns: nothing there is none, and an object there already
is no write. -/
def CatalogRequest.Value : CatalogRequest → Type
  | .get _ => Option (List UInt8)
  | .putAbsent _ _ => Bool
  | .deleteOne _ => CatalogKey
  | .list _ _ _ => List (List UInt8)

abbrev CatalogRequest.Answer (request : CatalogRequest) : Type := Except Error request.Value

/-- How a request goes: served, with the key a deletion takes; or failed, served or not. -/
inductive Weather where
  | fine (picked : Nat)
  | failing (error : Error) (landed : Bool) (picked : Nat)

namespace CatalogStore

def get (self : CatalogStore) (key : CatalogKey) : Option (List UInt8) := self.objects.lookup key

def under (self : CatalogStore) (root stem : List UInt8) : List (List UInt8) :=
  ((self.objects.keys.map (CatalogKey.bytes root)).filter stem.isPrefixOf).insertionSort (· ≤ ·)

/-- Writes an object, and keeps who was first. -/
def put (self : CatalogStore) (who : Nat) (key : CatalogKey) (body : List UInt8) :
    CatalogStore where
  objects := self.objects.insert key body
  founder := match key with
    | .topic name =>
      if (self.get (.tombstone name)).isNone then self.founder.insert name who else self.founder
    | _ => self.founder
  burier := match key with
    | .tombstone name => self.burier.insert name who
    | _ => self.burier

def delete (self : CatalogStore) (key : CatalogKey) : CatalogStore :=
  { self with objects := self.objects.erase key }

def pick (batch : List CatalogKey) (picked : Nat) : Option CatalogKey :=
  (batch[picked]?).or batch.head?

def answer (self : CatalogStore) (root : List UInt8) (who picked : Nat) :
    (request : CatalogRequest) → CatalogStore × request.Answer
  | .get key => (self, .ok (self.get key))
  | .putAbsent key body =>
    if (self.get key).isSome then (self, .ok false) else (self.put who key body, .ok true)
  | .deleteOne batch =>
    match pick batch picked with
    | none => (self, .error .transient)
    | some key => (self.delete key, .ok key)
  | .list stem after limit => (self, .ok (Listing.list (self.under root stem) after limit))

def serve (root : List UInt8) (who : Nat) (self : CatalogStore) (request : CatalogRequest) :
    Weather → CatalogStore × request.Answer
  | .fine picked => self.answer root who picked request
  | .failing error landed picked =>
    (if landed then (self.answer root who picked request).1 else self, .error error)

end CatalogStore

abbrev CatalogCall (α : Type) := ExceptT Error (Asks CatalogRequest CatalogRequest.Answer) α

namespace CatalogCall

def asks (request : CatalogRequest) : CatalogCall request.Value := ExceptT.mk (Asks.request request)

/-- The object under `key`, or none if there is none. -/
def read (key : CatalogKey) : CatalogCall (Option (List UInt8)) := asks (.get key)

def putAbsent (key : CatalogKey) (body : List UInt8) : CatalogCall Bool :=
  asks (.putAbsent key body)

def deleteOne (batch : List CatalogKey) : CatalogCall CatalogKey := asks (.deleteOne batch)

def keysUnder (stem : List UInt8) (after : Option (List UInt8)) (limit : Nat) :
    CatalogCall (List (List UInt8)) :=
  asks (.list stem after limit)

def raceVisibilityAttempts : Nat := 64

def deleteAll : Nat → List CatalogKey → CatalogCall Unit
  | 0, _ => return ()
  | left + 1, batch => do
    let gone ← deleteOne batch
    deleteAll left (batch.erase gone)

def tombstoneEntry (name : TopicId) : CatalogCall (Option CatalogEntry) := do
  match ← read (.tombstone name) with
  | none => return none
  | some bytes =>
    let entry ← ofExcept (StoredCatalog.decode bytes)
    if entry.name ≠ name then throw (.malformedMetadataSegment 0) else return some entry

def tombstoneId (name : TopicId) : CatalogCall (Option (BitVec 128)) := do
  return (← tombstoneEntry name).map CatalogEntry.id

def findEntry (name : TopicId) : CatalogCall (Option CatalogEntry) := do
  match ← read (.topic name) with
  | none => return none
  | some bytes =>
    let entry ← ofExcept (StoredCatalog.decode bytes)
    if entry.name ≠ name then throw (.malformedMetadataSegment 5) else return some entry

/-- The last look for a tombstone decides: one may have come while the others were read. -/
def find (name : TopicId) : CatalogCall (Option CatalogEntry) := do
  if (← tombstoneId name).isSome then return none
  else match ← findEntry name with
    | none => return none
    | some entry => match ← read (.id entry.id) with
      | none => return none
      | some bytes =>
        if bytes ≠ utf8 name.name then throw (.malformedMetadataSegment 0)
        else if (← tombstoneId name).isSome then return none
        else return some entry

/-- The name an id's object holds. -/
def nameUnder (bytes : List UInt8) : Option TopicId := do
  let text ← String.fromUTF8? ⟨bytes.toArray⟩
  (TopicId.new text).toOption

def findId (id : BitVec 128) : CatalogCall (Option CatalogEntry) := do
  match ← read (.id id) with
  | none => return none
  | some bytes => match nameUnder bytes with
    | none => throw (.malformedMetadataSegment 0)
    | some name => return (← find name).filter fun entry => decide (entry.id = id)

def liveIndexes (entry : CatalogEntry) : List CatalogKey :=
  [.topic entry.name, .id entry.id, .retention entry.name] ++
    entry.creator.toList.map fun creator => .owner creator entry.name

def deleteLiveIndexes (entry : CatalogEntry) : CatalogCall Unit :=
  deleteAll (liveIndexes entry).length (liveIndexes entry)

def rejectIfTombstoned (entry : CatalogEntry) : CatalogCall Unit := do
  if (← tombstoneId entry.name).isSome then
    deleteLiveIndexes entry
    throw .topicNameReserved
  else return ()

/-- The loop of `findAfterRace`: it finishes what the winner may have left half done. -/
def lookAgain (name : TopicId) : Nat → CatalogCall CatalogEntry
  | 0 => throw .transient
  | left + 1 => do
    if (← tombstoneId name).isSome then throw .topicNameReserved
    else match ← findEntry name with
      | none => lookAgain name left
      | some entry =>
        let _ ← putAbsent (.id entry.id) (utf8 name.name)
        if (← find name).isSome then return entry else lookAgain name left

def findAfterRace (name : TopicId) : CatalogCall CatalogEntry := do
  if (← tombstoneId name).isSome then throw .topicNameReserved
  else lookAgain name raceVisibilityAttempts

def insertWithKeyDomain (name : TopicId) (partitions : Nat) (keyDomain : KeyDomain) :
    CatalogCall CatalogEntry := do
  if (← tombstoneId name).isSome then throw .topicNameReserved
  else
    let entry : CatalogEntry := { name, partitions, keyDomain }
    if ← putAbsent (.topic name) (← ofExcept (StoredCatalog.encode entry)) then
      let _ ← putAbsent (.id entry.id) (utf8 name.name)
      rejectIfTombstoned entry
      return entry
    else findAfterRace name

def insert (name : TopicId) (partitions : Nat) : CatalogCall CatalogEntry :=
  insertWithKeyDomain name partitions .defaultDomain

/-- The entry that exists afterwards, and whether this call created it. -/
def insertOwned (name : TopicId) (partitions : Nat) (creator : Principal) :
    CatalogCall (CatalogEntry × Bool) := do
  if (← tombstoneId name).isSome then throw .topicNameReserved
  else
    let entry : CatalogEntry := { name, partitions, creator := some creator }
    let body ← ofExcept (StoredCatalog.encode entry)
    let _ ← putAbsent (.owner creator name) []
    if ← putAbsent (.topic name) body then
      let _ ← putAbsent (.id entry.id) (utf8 name.name)
      rejectIfTombstoned entry
      return (entry, true)
    else return (← findAfterRace name, false)

def deleteBuried (tombstone : CatalogEntry) (expectedId : Option (BitVec 128)) :
    CatalogCall TopicDeleteOutcome := do
  match expectedId.filter fun expected => decide (expected ≠ tombstone.id) with
  | some expected => return .staleId expected tombstone.id
  | none =>
    deleteLiveIndexes tombstone
    return .alreadyDeleted tombstone.id

def deleteTopic (name : TopicId) (expectedId : Option (BitVec 128)) :
    CatalogCall TopicDeleteOutcome := do
  match ← tombstoneEntry name with
  | some tombstone => deleteBuried tombstone expectedId
  | none => match ← findEntry name with
    | none => return .missing
    | some entry => match expectedId.filter fun expected => decide (expected ≠ entry.id) with
      | some expected => return .staleId expected entry.id
      | none =>
        if ← putAbsent (.tombstone name) (← ofExcept (StoredCatalog.encode entry)) then
          deleteLiveIndexes entry
          return .deleted entry
        else match ← tombstoneEntry name with
          | none => throw .transient
          | some tombstone => deleteBuried tombstone expectedId

/-- The names of a page's keys that are still seen, up to a limit. -/
def collect (see : List UInt8 → CatalogCall (Option TopicId)) (limit : Nat) :
    List (List UInt8) → List TopicId → CatalogCall (List TopicId)
  | [], names => return names
  | key :: keys, names => do
    match ← see key with
    | none => collect see limit keys names
    | some name =>
      if (names ++ [name]).length = limit then return names ++ [name]
      else collect see limit keys (names ++ [name])

/-- One page of keys after another; others may add keys for as long as it goes on. -/
def walk (stem : List UInt8) (see : List UInt8 → CatalogCall (Option TopicId)) (stopsShort : Bool)
    (limit : Nat) : Nat → Option (List UInt8) → List TopicId → CatalogCall (Option (List TopicId))
  | 0, _, _ => return none
  | fuel + 1, cursor, names =>
    if names.length < limit then do
      let keys ← keysUnder stem cursor (limit - names.length)
      match keys.getLast? with
      | none => return some names
      | some last =>
        let more ← collect see limit keys names
        if more.length = limit then return some more
        else if stopsShort && decide (keys.length < limit - names.length) then return some more
        else walk stem see stopsShort limit fuel (some last) more
    else return some names

def spelled (stem key : List UInt8) : Option TopicId :=
  (ObjectStoreTopicCatalog.stripPrefix stem key).bind ObjectStoreTopicCatalog.nameOf

def seeTopic (stem key : List UInt8) : CatalogCall (Option TopicId) := do
  match spelled stem key with
  | none => throw (.malformedMetadataSegment 0)
  | some name => return (← find name).map fun _ => name

def seeOwned (creator : Principal) (stem key : List UInt8) : CatalogCall (Option TopicId) := do
  match ObjectStoreTopicCatalog.stripPrefix stem key with
  | none => throw (.malformedMetadataSegment 0)
  | some raw => match ObjectStoreTopicCatalog.nameOf raw with
    | none => throw (.malformedMetadataSegment stem.length)
    | some name =>
      let found ← find name
      return if found.any fun entry => decide (entry.creator = some creator) then some name
        else none

def page (root : List UInt8) (fuel : Nat) (after : Option TopicId) (limit : Nat) :
    CatalogCall (Option (List TopicId)) :=
  walk (CatalogKey.topics root) (seeTopic (CatalogKey.topics root)) true limit fuel
    (after.map fun name => (CatalogKey.topic name).bytes root) []

def ownedPage (root : List UInt8) (creator : Principal) (fuel : Nat) (after : Option TopicId)
    (limit : Nat) : CatalogCall (Option (List TopicId)) :=
  walk (CatalogKey.ownerPrefix root creator)
    (seeOwned creator (CatalogKey.ownerPrefix root creator))
    false limit fuel (after.map fun name => (CatalogKey.owner creator name).bytes root) []

end CatalogCall

end Oqueue.Broker
