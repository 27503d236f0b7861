import Oqueue.Broker.Fetch

/-!
# How long a fetch waits

A request is read until what it got is worth answering, and parked in between
until a partition it names has moved. The handler's steps are taken between the
coordinator's, which folds an entry into the index first and announces how far
the index has got after.
-/

namespace Oqueue.Broker

structure ParkRequest extends FetchRequest where
  maxWaitMs : Int
  minBytes : Int

def maxParkMs : Int := 60000

def parkMs (maxWaitMs : Int) : Nat := (min (max maxWaitMs 0) maxParkMs).toNat

def maxReadsPerRequest : Nat := 4

/-- What is asked for, and a response can hold. -/
def satisfiableMinBytes (minBytes : Int) (budget : Budget) : Nat :=
  min (min minBytes.toNat readBudgetBytes) budget.total

/-- Whether a pass brought an error or enough bytes. -/
def worthAnswering (outcomes : List PartitionOutcome) (minBytes : Nat) : Bool :=
  outcomes.any (fun outcome => outcome.errorCode != ErrorCode.none) ||
    decide (minBytes ≤ (outcomes.map fun outcome => outcome.records.length).sum)

/-- Whether a watch has got past a version. -/
def isPast (current applied : Option Nat) : Bool :=
  match current, applied with
  | some _, none => true
  | some current, some applied => decide (applied < current)
  | none, _ => false

structure Ask where
  topic : FetchTopic
  asked : FetchPartition
  deriving DecidableEq, Repr

def FetchRequest.asks (request : FetchRequest) : List Ask :=
  request.topics.flatMap fun topic => topic.partitions.map fun asked => ⟨topic, asked⟩

/-- What one handler works with; its topics resolve to the same throughout. -/
structure Setting where
  node : Node
  authz : AuthzContext
  version : Nat
  request : ParkRequest

namespace Setting

variable (setting : Setting)

def target : Nat := satisfiableMinBytes setting.request.minBytes (.new setting.request.maxBytes)

def name (ask : Ask) : Option String := setting.node.resolvedName ask.topic setting.version

def unknown : Int :=
  if 13 ≤ setting.version then ErrorCode.unknownTopicId else ErrorCode.unknownTopicOrPartition

def authorized (ask : Ask) : Bool :=
  (setting.name ask).all fun name => topicAuthorized name setting.authz

/-- The partition whose watermark is sampled for an entry, if it can name one. -/
def keyOf (ask : Ask) : Option PartitionKey :=
  match setting.name ask with
  | none => none
  | some name => match TopicId.new name, PartitionId.new ask.asked.index with
    | .ok topic, .ok partition => some (topic, partition)
    | _, _ => none

/-- The watermark sampled for an entry. -/
def sample (index : IndexState) (ask : Ask) : List Nat :=
  ((setting.keyOf ask).map index.endOffset).toList

end Setting

namespace Park

inductive Why where
  | nothingAsked
  | notCaughtUp
  | worthAnswering
  | maxReads
  | deadline
  | stopped
  deriving DecidableEq, Repr

/-- What a handler keeps between its reads. -/
structure Held where
  reads : Nat
  objects : FetchedObjects
  before : List Nat
  applied : Option Nat
  outcomes : List PartitionOutcome

/-- How far the reading of one partition has got: the index it was resolved in, and the one
its manifest was looked for in. -/
inductive Reading where
  | fresh
  | resolved (resolving : IndexState)
  | paged (resolving manifest : IndexState)

inductive Handler where
  | arriving
  | catchingUp
  | refusing (left : List Ask) (outcomes : List PartitionOutcome)
  | sampling (reads : Nat) (objects : FetchedObjects) (left : List Ask) (ends : List Nat)
  | reading (held : Held) (left : List Ask) (budget : Budget) (partition : Reading)
  | waiting (held : Held)
  | woken (held : Held)
  | checking (held : Held) (left : List Ask) (ends : List Nat)
  | returned (outcomes : List PartitionOutcome) (reads : Nat) (why : Why)

/-- An entry's effect on a partition's end, at the version it was folded under. -/
structure Commit where
  version : Nat
  key : PartitionKey
  stop : Nat
  deriving DecidableEq, Repr

def commitsOf (entry : MetadataEntry) (after : IndexState) : List Commit :=
  (IndexState.spansOf entry.record).map fun (_, _, span) =>
    ⟨entry.version, span.key, after.endOffset span.key⟩

/-- One handler beside its shard's coordinator. -/
structure World where
  index : IndexState := {}
  announced : Option Nat := none
  stopped : Bool := false
  now : Nat := 0
  deadline : Nat := 0
  commits : List Commit := []
  handler : Handler := .arriving

/-- What happens next: the coordinator folds, announces or stops, time passes, or the handler
goes on, with what the store answers it then. -/
inductive Action where
  | fold (entry : MetadataEntry)
  | announce
  | stop
  | tick
  | caughtUp (held : Bool)
  | handle (store : ObjectKey → ByteRange → Except Error (List UInt8))
  | wake
  | expire
  | close

namespace World

variable (setting : Setting)

def goTo (world : World) (handler : Handler) : World := { world with handler := handler }

/-- One partition of a pass, from the last look at the index. -/
def readOne (world : World) (store : ObjectKey → ByteRange → Except Error (List UInt8))
    (held : Held) (ask : Ask) (left : List Ask) (budget : Budget) (resolving manifest : IndexState) :
    Handler :=
  let (outcome, objects) := { setting.node with store }.onePartition
    ⟨resolving, manifest, world.index⟩ (setting.name ask) setting.unknown ask.asked
    (budget.allowance ask.asked.partitionMaxBytes) held.objects
  .reading { held with objects, outcomes := held.outcomes ++ [outcome] } left
    (budget.spend outcome.cost (!outcome.records.isEmpty)) .fresh

def decided (world : World) (held : Held) : Handler :=
  if worthAnswering held.outcomes setting.target then .returned held.outcomes held.reads .worthAnswering
  else if maxReadsPerRequest ≤ held.reads then .returned held.outcomes held.reads .maxReads
  else if world.deadline ≤ world.now then .returned held.outcomes held.reads .deadline
  else .waiting held

/-- The handler's next step, outside of its waits. -/
def handled (world : World) (store : ObjectKey → ByteRange → Except Error (List UInt8)) :
    Option World :=
  match world.handler with
  | .arriving =>
    if setting.request.topics.all fun topic => topic.partitions.isEmpty then
      some (world.goTo (.returned [] 0 .nothingAsked))
    else some { world with
      deadline := world.now + parkMs setting.request.maxWaitMs
      handler := .catchingUp }
  | .refusing (ask :: left) outcomes => some (world.goTo (.refusing left (outcomes ++
      [refused world.index (setting.name ask) ask.asked.index ErrorCode.offsetNotAvailable])))
  | .refusing [] outcomes => some (world.goTo (.returned outcomes 0 .notCaughtUp))
  | .sampling reads objects (ask :: left) ends =>
    some (world.goTo (.sampling reads objects left (ends ++ setting.sample world.index ask)))
  | .sampling reads objects [] ends => some (world.goTo (.reading
      ⟨reads, objects, ends, world.announced, []⟩ setting.request.asks
      (.new setting.request.maxBytes) .fresh))
  | .reading held (ask :: left) budget partition =>
    if setting.authorized ask then match partition with
      | .fresh => some (world.goTo (.reading held (ask :: left) budget (.resolved world.index)))
      | .resolved resolving =>
        some (world.goTo (.reading held (ask :: left) budget (.paged resolving world.index)))
      | .paged resolving manifest =>
        some (world.goTo (world.readOne setting store held ask left budget resolving manifest))
    else some (world.goTo (.reading { held with outcomes := held.outcomes ++ [refused world.index
      (setting.name ask) ask.asked.index ErrorCode.topicAuthorizationFailed] } left budget .fresh))
  | .reading held [] _ _ =>
    some (world.goTo (world.decided setting { held with reads := held.reads + 1 }))
  | .woken held =>
    some (world.goTo (.checking { held with applied := world.announced } setting.request.asks []))
  | .checking held (ask :: left) ends =>
    some (world.goTo (.checking held left (ends ++ setting.sample world.index ask)))
  | .checking held [] ends =>
    some (world.goTo (if ends = held.before then .waiting held
      else .sampling held.reads held.objects setting.request.asks []))
  | .catchingUp | .waiting _ | .returned .. => none

def step (world : World) : Action → Option World
  | .fold entry => match world.index.apply [entry] with
    | .ok after => some { world with
        index := after
        commits := world.commits ++ commitsOf entry after }
    | .error _ => none
  | .announce =>
    if world.stopped then none else some { world with announced := world.index.appliedUpto }
  | .stop => some { world with stopped := true }
  | .tick => some { world with now := world.now + 1 }
  | .caughtUp held => match world.handler with
    | .catchingUp => some (world.goTo (if held then .sampling 0 {} setting.request.asks []
        else .refusing setting.request.asks []))
    | _ => none
  | .handle store => world.handled setting store
  | .wake => match world.handler with
    | .waiting held => if isPast world.announced held.applied then some (world.goTo (.woken held)) else none
    | _ => none
  | .expire => match world.handler with
    | .waiting held =>
      if world.deadline ≤ world.now then some (world.goTo (.returned held.outcomes held.reads .deadline))
      else none
    | _ => none
  | .close => match world.handler with
    | .waiting held =>
      if world.stopped && !isPast world.announced held.applied then
        some (world.goTo (.returned held.outcomes held.reads .stopped))
      else none
    | _ => none

end World

end Park

end Oqueue.Broker
