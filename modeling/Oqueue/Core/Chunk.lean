import Oqueue.Core.Types

/-!
# Reads of chunks that share a fetch

The first caller of a chunk registers a cell and runs the fetch; whoever calls
meanwhile waits on the cell. A guard publishes the fetch's answer once, also
when its caller is dropped: the registration goes first, then the answer is put
in the cell, then those who wait are woken one after another.
-/

namespace Oqueue

structure ChunkKey where
  key : ObjectKey
  chunkIndex : Nat
  length : Nat
  deriving DecidableEq, Repr

namespace Chunk

abbrev Answer := Except Error (List UInt8)

/-- The chunk a call names and where it lies, unless no object has such a chunk. -/
def address (chunkSize : Nat) (key : ObjectKey) (chunkIndex length : Nat) :
    Except Error (ChunkKey × ByteRange) :=
  if chunkSize < length then .error (.chunkLengthTooLarge length chunkSize)
  else if u64Max < chunkIndex * chunkSize then
    .error (.byteRangeOutOfBounds key u64Max length u64Max)
  else do
    let range ← ByteRange.new (chunkIndex * chunkSize) length
    return ({ key, chunkIndex, length }, range)

/-- The outcome of one fetch, and the wakers of those who wait for it. -/
structure Shared where
  result : Option Answer := none
  wakers : List Nat := []

/-- A waker is kept once. -/
def Shared.wait (shared : Shared) (waker : Nat) : Shared :=
  if waker ∈ shared.wakers then shared else { shared with wakers := shared.wakers ++ [waker] }

inductive Ending where
  | finished (answer : Answer)
  | dropped

/-- What the guard publishes of it. -/
def Ending.answer : Ending → Answer
  | .finished answer => answer
  | .dropped => .error .transient

/-- How far the caller that fetches has got. -/
inductive Stage where
  | fetching
  | ended (ending : Ending)
  | unregistered (ending : Ending)
  | waking (ending : Ending) (left : List Nat)
  | done (ending : Ending)

inductive Caller where
  | outside
  | refused (error : Error)
  | leading (key : ChunkKey) (cell : Nat) (stage : Stage)
  /-- Waits, after its first poll under a waker; that waker may have been woken since. -/
  | following (key : ChunkKey) (cell : Nat) (waker : Option Nat) (woken : Bool)
  | answered (key : ChunkKey) (cell : Nat) (answer : Answer)
  | gone

/-- What a woken task's callers notice. -/
def Caller.wake (waker : Nat) : Caller → Caller
  | .following key cell (some mine) woken =>
    .following key cell (some mine) (woken || decide (mine = waker))
  | caller => caller

/-- One store and its callers. Cells are numbered in the order they were made;
`removed` remembers the cells taken out of the registry. -/
structure World where
  inFlight : Finmap fun _ : ChunkKey => Nat := ∅
  cells : Nat := 0
  shared : Nat → Shared := fun _ => {}
  callers : Nat → Caller := fun _ => .outside
  removed : List Nat := []

inductive Action where
  | call (caller : Nat) (key : ObjectKey) (chunkIndex length : Nat)
  | fetched (leader : Nat) (answer : Answer)
  | dropLeader (leader : Nat)
  | remove (leader : Nat)
  | publish (leader : Nat)
  | wake (leader : Nat)
  | poll (follower waker : Nat)
  | dropFollower (follower : Nat)

namespace World

def goTo (world : World) (caller : Nat) (place : Caller) : World :=
  { world with callers := Function.update world.callers caller place }

/-- Joins the fetch under way, or registers as the one that runs it: one lock for both. -/
def joinOrLead (world : World) (caller : Nat) (key : ChunkKey) : World :=
  match world.inFlight.lookup key with
  | some existing => world.goTo caller (.following key existing none false)
  | none =>
    { world with
      inFlight := world.inFlight.insert key world.cells
      cells := world.cells + 1
      shared := Function.update world.shared world.cells {}
      callers := Function.update world.callers caller (.leading key world.cells .fetching) }

/-- Takes the key's registration away, whichever it is. -/
def unregister (world : World) (key : ChunkKey) : World :=
  { world with
    inFlight := world.inFlight.erase key
    removed := (world.inFlight.lookup key).toList ++ world.removed }

def setShared (world : World) (cell : Nat) (shared : Shared) : World :=
  { world with shared := Function.update world.shared cell shared }

def wakeAll (world : World) (waker : Nat) : World :=
  { world with callers := fun caller => (world.callers caller).wake waker }

def step (chunkSize : Nat) (world : World) : Action → Option World
  | .call caller key chunkIndex length =>
    match world.callers caller with
    | .outside => some <| match address chunkSize key chunkIndex length with
      | .error error => world.goTo caller (.refused error)
      | .ok (chunk, _) => world.joinOrLead caller chunk
    | _ => none
  | .fetched leader answer =>
    match world.callers leader with
    | .leading key cell .fetching =>
      some (world.goTo leader (.leading key cell (.ended (.finished answer))))
    | _ => none
  | .dropLeader leader =>
    match world.callers leader with
    | .leading key cell .fetching => some (world.goTo leader (.leading key cell (.ended .dropped)))
    | _ => none
  | .remove leader =>
    match world.callers leader with
    | .leading key cell (.ended ending) =>
      some ((world.unregister key).goTo leader (.leading key cell (.unregistered ending)))
    | _ => none
  | .publish leader =>
    match world.callers leader with
    | .leading key cell (.unregistered ending) =>
      some ((world.setShared cell { result := some ending.answer }).goTo leader
        (.leading key cell (.waking ending (world.shared cell).wakers)))
    | _ => none
  | .wake leader =>
    match world.callers leader with
    | .leading key cell (.waking ending []) => some (world.goTo leader (.leading key cell (.done ending)))
    | .leading key cell (.waking ending (waker :: left)) =>
      some ((world.goTo leader (.leading key cell (.waking ending left))).wakeAll waker)
    | _ => none
  | .poll follower waker =>
    match world.callers follower with
    | .following key cell _ _ => match (world.shared cell).result with
      | some answer => some (world.goTo follower (.answered key cell answer))
      | none =>
        some ((world.setShared cell ((world.shared cell).wait waker)).goTo follower
          (.following key cell (some waker) false))
    | _ => none
  | .dropFollower follower =>
    match world.callers follower with
    | .following .. => some (world.goTo follower .gone)
    | _ => none

end World

end Chunk

end Oqueue
