import Oqueue.Crypto.DekCache

/-!
# Unwrapped data-encryption keys

What the provider unwrapped is kept for a while under the blob it was unwrapped from. A
lookup notices that an entry has expired, and an insert makes room: the expired entries go
first, then the least recently used until there is room for one more.
-/

namespace Oqueue.UnwrapCache

def ttlMs : Int := 300000
def maxEntries : Nat := 1024
def dekBytes : Nat := 32

/-- Key material, of the one length it has. -/
structure Dek where
  bytes : List UInt8
  full : bytes.length = dekBytes
  deriving DecidableEq, Repr

def Dek.fromSlice (bytes : List UInt8) : Option Dek :=
  if full : bytes.length = dekBytes then some ⟨bytes, full⟩ else none

structure BlobId where
  keyId : KeyId
  wrapped : List UInt8
  deriving DecidableEq, Repr

structure CachedDek where
  dek : Dek
  unwrappedAt : Int
  /-- A tick, not a time. -/
  lastUsed : Nat
  deriving DecidableEq, Repr

def CachedDek.freshAt (self : CachedDek) (now : Int) : Bool :=
  decide (saturatingSubI64 now self.unwrappedAt < ttlMs)

/-- Everything the lock protects. The map's keys are told apart by `insert`. -/
structure Entries where
  byBlob : List (BlobId × CachedDek) := []
  nextUse : Nat := 0
  deriving DecidableEq, Repr

namespace Entries

def get (self : Entries) (id : BlobId) : Option CachedDek :=
  (self.byBlob.find? fun item => item.1 = id).map Prod.snd

def remove (self : Entries) (id : BlobId) : Entries :=
  { self with byBlob := self.byBlob.filter fun item => item.1 ≠ id }

def insert (self : Entries) (id : BlobId) (entry : CachedDek) : Entries :=
  { self with byBlob := (id, entry) :: (self.remove id).byBlob }

/-- The tick for a use happening now is `nextUse`; this is what is left after it. -/
def ticked (self : Entries) : Entries := { self with nextUse := saturatingAdd self.nextUse 1 }

def retain (self : Entries) (now : Int) : Entries :=
  { self with byBlob := self.byBlob.filter fun item => item.2.freshAt now }

/-- Whether an iteration may find this entry to be the one of the least tick. -/
def isVictim (self : Entries) (id : BlobId) : Bool :=
  match self.get id with
  | none => false
  | some entry => self.byBlob.all fun item => decide (entry.lastUsed ≤ item.2.lastUsed)

/-- The loop of `make_room`, with the entries that its iterations of the map find. An empty map
has room, so the loop ends by its condition. -/
def evict : List BlobId → Entries → Option Entries
  | [], self => if maxEntries ≤ self.byBlob.length then none else some self
  | victim :: rest, self =>
    if maxEntries ≤ self.byBlob.length ∧ self.isVictim victim = true then
      evict rest (self.remove victim)
    else none

def makeRoom (self : Entries) (now : Int) (victims : List BlobId) : Option Entries :=
  evict victims (self.retain now)

end Entries

/-- Where a call stands. Other calls run between any two of these. -/
inductive Phase where
  | unborn
  /-- The clock is read, and the lock is still to be taken. -/
  | looking (id : BlobId) (now : Int)
  /-- At the await. -/
  | unwrapping (id : BlobId)
  /-- The clock is read as the answer comes, and the lock is still to be taken. -/
  | fetched (id : BlobId) (cached : CachedDek)
  | done
  | failed
  deriving DecidableEq, Repr

/-- One run of an open closure: for which call, with which key, at which of its clock readings. -/
structure Open where
  call : Nat
  id : BlobId
  now : Int
  dek : Dek
  unwrappedAt : Int
  deriving DecidableEq, Repr

/-- A key the provider returned, for what, and when. -/
structure Unwrap where
  id : BlobId
  dek : Dek
  now : Int
  deriving DecidableEq, Repr

structure World where
  clock : Int
  entries : Entries := {}
  calls : Nat → Phase := fun _ => .unborn
  /-- What the provider returned, newest first. -/
  unwraps : List Unwrap := []
  /-- The open closures that ran, newest first. Each is one use. -/
  opens : List Open := []

inductive Action where
  | tick (now : Int)
  | call (call : Nat) (id : BlobId)
  | useFresh (call : Nat)
  | unwrap (call : Nat) (answer : Option (List UInt8))
  | install (call : Nat) (victims : List BlobId)
  | drop (call : Nat)

namespace World

def move (w : World) (call : Nat) (phase : Phase) : World :=
  { w with calls := Function.update w.calls call phase }

/-- Uses an entry of these: it takes the next tick, and the closure runs with its key. -/
def openWith (w : World) (entries : Entries) (call : Nat) (id : BlobId) (now : Int)
    (entry : CachedDek) : World :=
  { w.move call .done with
    entries := entries.ticked.insert id { entry with lastUsed := entries.nextUse }
    opens   := ⟨call, id, now, entry.dek, entry.unwrappedAt⟩ :: w.opens }

/-- The critical section of `use_fresh`. -/
def useFresh (w : World) (call : Nat) (id : BlobId) (now : Int) : World :=
  match w.entries.get id with
  | none => w.move call (.unwrapping id)
  | some entry =>
    if entry.freshAt now then w.openWith w.entries call id now entry
    else { w.move call (.unwrapping id) with entries := w.entries.remove id }

/-- The critical section of `fetch_and_use`, at the clock reading of the fresh entry. -/
def install (w : World) (call : Nat) (id : BlobId) (cached : CachedDek)
    (victims : List BlobId) : Option World := do
  let now := cached.unwrappedAt
  let entries ← w.entries.makeRoom now victims
  match entries.get id with
  | some entry =>
    if entry.freshAt now then return w.openWith entries call id now entry
    else return w.openWith entries call id now cached
  | none => return w.openWith entries call id now cached

def step (w : World) : Action → Option World
  | .tick now => if w.clock ≤ now then some { w with clock := now } else none
  | .call call id => match w.calls call with
    | .unborn => some (w.move call (.looking id w.clock))
    | _ => none
  | .useFresh call => match w.calls call with
    | .looking id now => some (w.useFresh call id now)
    | _ => none
  | .unwrap call answer => match w.calls call with
    | .unwrapping id => match answer.bind Dek.fromSlice with
      | none => some (w.move call .failed)
      | some dek =>
        some { w.move call (.fetched id ⟨dek, w.clock, 0⟩) with
          unwraps := ⟨id, dek, w.clock⟩ :: w.unwraps }
    | _ => none
  | .install call victims => match w.calls call with
    | .fetched id cached => w.install call id cached victims
    | _ => none
  | .drop call => match w.calls call with
    | .unwrapping _ => some (w.move call .failed)
    | _ => none

end World

end Oqueue.UnwrapCache
