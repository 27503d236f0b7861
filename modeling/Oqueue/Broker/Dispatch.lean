import Oqueue.Library.FairLock
import Oqueue.Library.Steps

/-!
# Requests and the topic lifecycle lock

A request holds the read side of the lock while its creator's grants are hydrated, and again
through its whole handler, unless the handler takes the write side itself. Inside the
handler a topic that is created takes the read side once more. Whatever else a request
awaits comes about in time, and so is a step of its own.
-/

namespace Oqueue

inductive ApiKey where
  | produce | fetch | listOffsets | metadata | offsetCommit | offsetFetch | findCoordinator
  | joinGroup | heartbeat | leaveGroup | syncGroup | describeGroups | listGroups | saslHandshake
  | apiVersions | createTopics | deleteTopics | initProducerId | describeConfigs | alterConfigs
  | saslAuthenticate | incrementalAlterConfigs | describeClientQuotas | alterClientQuotas
  deriving DecidableEq, Repr

namespace ApiKey

/-- The requests whose handlers create topics. -/
def createsTopics : ApiKey → Bool
  | .metadata | .createTopics => true
  | _ => false

end ApiKey

namespace Dispatch

/-- Where a request stands, with how many awaits, or topics, are still before it. -/
inductive Place where
  -- `dispatch`, and `hydrate_creator_grants` in it
  | admitted
  | hydrateWaiting
  | hydrating (left : Nat)
  | hydrated
  | waiting
  -- a handler under `dispatch`'s read side, and `ensure_topic` or `create_one` in it
  | serving (left : Nat)
  | createWaiting (left : Nat)
  | creating (left : Nat)
  -- `delete_one` for each topic, and `delete_topic` in it
  | deleting (left : Nat)
  | deleteWaiting (left : Nat)
  | tombstoning (left : Nat)
  -- `alter_configs` and `incremental_alter_configs`
  | alterWaiting
  | altering (left : Nat)
  | answered
  deriving DecidableEq, Repr

namespace Place

def waits : Place → Option Side
  | .hydrateWaiting | .waiting | .createWaiting _ => some .read
  | .deleteWaiting _ | .alterWaiting => some .write
  | _ => none

/-- How many times it holds the read side. -/
def reads : Place → Nat
  | .hydrating _ | .serving _ | .createWaiting _ => 1
  | .creating _ => 2
  | _ => 0

def writes : Place → Bool
  | .tombstoning _ | .altering _ => true
  | _ => false

/-- Whether a deadline ends the wait. -/
def expires : Place → Bool
  | .deleteWaiting _ => true
  | _ => false

end Place

/-- A request: whether a principal is authenticated on its connection, how many topics that
principal has created, and how many awaits its handler makes, or topics it names. -/
structure Handler where
  api : ApiKey
  authenticated : Bool
  creations : Nat
  items : Nat
  place : Place := .admitted
  deriving DecidableEq, Repr

structure World where
  lock : FairLock Nat := {}
  handlers : Nat → Option Handler := fun _ => none

inductive Action where
  | arrive (id : Nat) (api : ApiKey) (authenticated : Bool) (creations items : Nat)
  /-- A request that waits for no lock goes on: refused or not, creating the topic or not. -/
  | advance (id : Nat) (chosen : Bool)
  /-- The lock serves whoever waits longest. -/
  | grant
  /-- The deadline of a topic's deletion passes. -/
  | expire (id : Nat)
  deriving DecidableEq, Repr

/-- Whether it is a step of the requests that are there. -/
def Action.serves : Action → Bool
  | .arrive _ _ _ _ _ => false
  | _ => true

/-- What a handler does with the lock when it goes on. -/
inductive Move where
  | goes (place : Place)
  | asks (side : Side) (place : Place)
  | lets (side : Side) (place : Place)

namespace Handler

/-- The next move of a request that waits for no lock. -/
def next (self : Handler) (chosen : Bool) : Option Move :=
  match self.place with
  | .admitted =>
    -- unparsed, unsupported, unauthorized and over quota are all closed here
    if chosen then some (.goes .answered)
    else if self.authenticated then some (.asks .read .hydrateWaiting)
    else some (.goes .hydrated)
  | .hydrating (left + 1) => some (.goes (.hydrating left))
  | .hydrating 0 => some (.lets .read .hydrated)
  | .hydrated =>
    if chosen then some (.goes .answered)
    else match self.api with
      | .deleteTopics => some (.goes (.deleting self.items))
      | .alterConfigs | .incrementalAlterConfigs => some (.asks .write .alterWaiting)
      | _ => some (.asks .read .waiting)
  | .serving (left + 1) =>
    if self.api.createsTopics && chosen then some (.asks .read (.createWaiting left))
    else some (.goes (.serving left))
  | .serving 0 => some (.lets .read .answered)
  | .creating left => some (.lets .read (.serving left))
  | .deleting (left + 1) =>
    if chosen then some (.asks .write (.deleteWaiting left)) else some (.goes (.deleting left))
  | .deleting 0 => some (.goes .answered)
  | .tombstoning left => some (.lets .write (.deleting left))
  | .altering (left + 1) => some (.goes (.altering left))
  | .altering 0 => some (.lets .write .answered)
  | .hydrateWaiting | .waiting | .createWaiting _ | .deleteWaiting _ | .alterWaiting
  | .answered => none

/-- Where a request stands once it has what it waited for. -/
def granted (self : Handler) : Place :=
  match self.place with
  | .hydrateWaiting => .hydrating self.creations
  | .waiting => .serving self.items
  | .createWaiting left => .creating left
  | .deleteWaiting left => .tombstoning left
  | .alterWaiting => .altering self.items
  | place => place

end Handler

namespace World

def setHandler (self : World) (id : Nat) (handler : Handler) : World :=
  { self with handlers := Function.update self.handlers id (some handler) }

def goTo (self : World) (id : Nat) (handler : Handler) (place : Place) : World :=
  self.setHandler id { handler with place }

def move (self : World) (id : Nat) (handler : Handler) : Move → World
  | .goes place => self.goTo id handler place
  | .asks side place => { self with lock := self.lock.ask id side }.goTo id handler place
  | .lets side place => { self with lock := self.lock.release id side }.goTo id handler place

def step (self : World) : Action → Option World
  | .arrive id api authenticated creations items =>
    if (self.handlers id).isSome then none
    else some (self.setHandler id { api, authenticated, creations, items })
  | .advance id chosen => do
    let handler ← self.handlers id
    let move ← handler.next chosen
    return self.move id handler move
  | .grant => do
    let (id, lock) ← self.lock.grant
    let handler ← self.handlers id
    return ({ self with lock := lock } : World).goTo id handler handler.granted
  | .expire id => do
    let handler ← self.handlers id
    match handler.place with
    | .deleteWaiting left =>
      let withdrawn : World := { self with lock := self.lock.withdraw id }
      some (withdrawn.goTo id handler (.deleting left))
    | _ => none

end World

end Dispatch

end Oqueue
