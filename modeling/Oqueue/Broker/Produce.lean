import Oqueue.Broker.Authz
import Oqueue.Broker.Ingest
import Oqueue.Codec.ErrorCodes
import Oqueue.Coordinator.ExactlyOnce
import Oqueue.Core.Bundle
import Oqueue.Library.Threaded

/-!
# `Produce`

A request's partitions are verified one by one and pushed into one bundle for each key
domain. Every bundle is then written and committed, and what the commits answered is put
back at the partitions it is about.
-/

namespace Oqueue.Broker.Produce

open Threaded

/-- What the cluster answers while one partition is handled. Every lookup and every seal is
awaited, so the next partition may be answered otherwise. -/
structure Lookups where
  partitionCount : String → Option Nat
  topicKeyDomain : TopicId → Option KeyDomain
  sealer : KeyDomain → TopicId → Nat → List UInt8 → Except Error SealedRegion

structure Partition where
  index : Int
  records : Option (List UInt8)
  lookups : Lookups

/-- A topic is named, or given by an id, which the cluster resolves when it can. -/
structure Topic where
  name : Option String
  topicId : List UInt8
  nameById : Option String
  partitions : List Partition

/-- A frame's length is an `i32`, and every partition takes some of it. -/
structure Request where
  acks : Int
  topics : List Topic
  framed : (topics.map fun topic => topic.partitions.length).sum < 2 ^ 31

structure PendingRecord where
  topic : TopicId
  partition : Nat
  pushed : PushedRecords
  records : List UInt8

inductive PendingPushError where
  | invalidRecord
  | encryptionUnavailable
  deriving DecidableEq, Repr

/-- The bundles a request is filling, where each pushed region stands in the request, and
the partitions the request has named. -/
structure Pending where
  bundles : List BundleBuilder := []
  byDomain : List (KeyDomain × Nat) := []
  routes : List (List Nat) := []
  pushed : Nat := 0
  seen : List (String × Int) := []
  deriving DecidableEq, Repr

def sealedRegion (lookups : Lookups) (domain : KeyDomain) (record : PendingRecord) :
    Except PendingPushError (Option SealedRegion) :=
  if domain.requiresSealing then
    match lookups.sealer domain record.topic record.partition record.records with
    | .ok region => .ok (some region)
    | .error _ => .error .encryptionUnavailable
  else .ok none

def pushRegion (bundle : BundleBuilder) (record : PendingRecord) :
    Option SealedRegion → Except PendingPushError BundleBuilder
  | some region =>
    match bundle.pushSealed record.topic record.partition record.pushed region with
    | .ok bundle => .ok bundle
    | .error _ => .error .encryptionUnavailable
  | none =>
    match bundle.push record.topic record.partition record.pushed record.records with
    | .ok bundle => .ok bundle
    | .error _ => .error .invalidRecord

namespace Pending

def bundleFor (self : Pending) (domain : KeyDomain) : Pending × Nat :=
  match self.byDomain.lookup domain with
  | some index => (self, index)
  | none => ({ self with
      byDomain := self.byDomain ++ [(domain, self.bundles.length)]
      bundles := self.bundles ++ [{}]
      routes := self.routes ++ [[]] }, self.bundles.length)

def push (self : Pending) (lookups : Lookups) (domain : KeyDomain) (record : PendingRecord) :
    Pending × Except PendingPushError Nat :=
  match sealedRegion lookups domain record with
  | .error error => (self, .error error)
  | .ok region =>
    let (self, index) := self.bundleFor domain
    match pushRegion (self.bundles.getD index {}) record region with
    -- A bundle that was opened for this region stays.
    | .error error => (self, .error error)
    | .ok bundle => ({ self with
        bundles := self.bundles.set index bundle
        routes := self.routes.set index (self.routes.getD index [] ++ [self.pushed])
        pushed := self.pushed + 1 }, .ok self.pushed)

end Pending

/-- Where one requested partition's answer comes from. -/
inductive Slot where
  | refused (code : Int)
  | pushed (nth : Nat)
  deriving DecidableEq, Repr

structure PartitionSlot where
  index : Int
  slot : Slot
  deriving DecidableEq, Repr

def appendPartition (pending : Pending) (lookups : Lookups) (domain : KeyDomain)
    (record : PendingRecord) : Pending × Slot :=
  match pending.push lookups domain record with
  | (pending, .ok nth) => (pending, .pushed nth)
  | (pending, .error .invalidRecord) => (pending, .refused ErrorCode.invalidRecord)
  | (pending, .error .encryptionUnavailable) => (pending, .refused ErrorCode.invalidRequest)

/-- The checks of one partition on its own, up to the record it would push. -/
def screened (topic : String) (partition : Partition) : Except Int PendingRecord :=
  match PartitionId.new partition.index with
  | .error _ => .error ErrorCode.unknownTopicOrPartition
  | .ok id =>
    if (partition.lookups.partitionCount topic).any fun count => decide (id < count) then
      match partition.records with
      | none => .error ErrorCode.invalidRecord
      | some records => match verify records with
        | .error code => .error code
        | .ok verified => match TopicId.new topic with
          | .error _ => .error ErrorCode.unknownTopicOrPartition
          | .ok topicId => .ok ⟨topicId, id, ⟨verified.records, verified.producer⟩, records⟩
    else .error ErrorCode.unknownTopicOrPartition

/-- How the partitions already seen are told from a new one. -/
instance seenBEq : LawfulBEq (String × Int) := inferInstance

/-- One partition's verdict: the ingest rule, then a region in its domain's bundle. -/
def onePartition (pending : Pending) (topic : String) (partition : Partition) : Pending × Slot :=
  match screened topic partition with
  | .error code => (pending, .refused code)
  | .ok record =>
    if (topic, partition.index) ∈ pending.seen then (pending, .refused ErrorCode.invalidRecord)
    else
      let pending := { pending with seen := (topic, partition.index) :: pending.seen }
      match partition.lookups.topicKeyDomain record.topic with
      | none => (pending, .refused ErrorCode.unknownTopicOrPartition)
      | some domain => appendPartition pending partition.lookups domain record

structure TopicMode where
  version : Int
  acksValid : Bool

/-- Whether a topic's partitions are looked at at all. -/
def admitted (resolved : Option String) (mode : TopicMode) (authz : AuthzContext) :
    Except Int String :=
  if !mode.acksValid then .error ErrorCode.invalidRequiredAcks
  else match resolved with
    | none => .error ErrorCode.unknownTopicId
    | some topic =>
      if topicAuthorized topic authz then .ok topic
      else .error ErrorCode.topicAuthorizationFailed

structure TopicOutcome where
  name : Option String
  topicId : List UInt8
  partitions : List PartitionSlot

/-- The name a topic's partitions are handled under. -/
def Topic.resolved (topic : Topic) (version : Int) : Option String :=
  if 13 ≤ version then topic.nameById else topic.name

def takePartition (mode : TopicMode) (authz : AuthzContext) (resolved : Option String)
    (pending : Pending) (partition : Partition) : Pending × PartitionSlot :=
  match admitted resolved mode authz with
  | .error code => (pending, ⟨partition.index, .refused code⟩)
  | .ok topic =>
    let (pending, slot) := onePartition pending topic partition
    (pending, ⟨partition.index, slot⟩)

def oneTopic (mode : TopicMode) (authz : AuthzContext) (pending : Pending) (topic : Topic) :
    Pending × TopicOutcome :=
  let (pending, partitions) :=
    threaded (takePartition mode authz (topic.resolved mode.version)) pending topic.partitions
  (pending, ⟨if 13 ≤ mode.version then none else topic.name, topic.topicId, partitions⟩)

inductive FlushError where
  | store (source : Error)
  | commit (source : CoordinatorError)
  deriving DecidableEq, Repr

/-- What a flush decided about one pushed region. -/
inductive PushOutcome where
  | assigned (offset : Nat)
  | refused (code : Int)
  | failed (code : Int)
  deriving DecidableEq, Repr

def PushOutcome.fromRejection : RejectReason → PushOutcome
  | .outOfOrder => .refused ErrorCode.outOfOrderSequenceNumber
  | .duplicate => .refused ErrorCode.duplicateSequenceNumber
  | .staleEpoch => .refused ErrorCode.invalidProducerEpoch

def PushOutcome.ofSpan : SpanOutcome → PushOutcome
  | .assigned assignment => .assigned assignment.baseOffset
  | .rejected reason => fromRejection reason

def failedOutcomes (outcomes : List (Option PushOutcome)) (code : Int) : List PushOutcome :=
  outcomes.map fun outcome => outcome.getD (.failed code)

def failureCode : FlushError → Int
  | .store _ => ErrorCode.notEnoughReplicas
  | .commit _ => ErrorCode.leaderNotAvailable

/-- The shard that commits. The lists are ghosts: all that was ever journaled, and what of
it this request's own commits journaled. -/
structure Shard where
  loop : CoordinatorLoop := {}
  journaled : List (CommittedSpan × Nat) := []
  own : List (CommittedSpan × Nat) := []

/-- What meets one bundle's flush outside the request: the namer and the store, what the
shard serves others first, whether it still takes the commit, and whether it is heard. -/
structure Weather where
  nextKey : Except Error ObjectKey
  put : Except Error Unit
  others : List (LoopRequest × Except Error Unit)
  taken : Bool
  writtenAt : Nat
  journal : Except Error Unit
  heard : Bool

namespace Shard

/-- The shard after whatever it has served. -/
def after (history : List (LoopRequest × Except Error Unit)) : Shard where
  loop := .run history
  journaled := CoordinatorLoop.journaledIn history

def serveOther (self : Shard) (request : LoopRequest × Except Error Unit) : Shard :=
  { self with
    loop := self.loop.turn request
    journaled := self.journaled ++ self.loop.journaledBy request }

/-- Hands the shard a commit, and waits for its answer. -/
def commit (self : Shard) (weather : Weather) (object : ObjectKey) (spans : List CommittedSpan) :
    Shard × Except CoordinatorError CommitAck :=
  if weather.taken then
    let journaled :=
      self.loop.journaledBy (.commit object spans weather.writtenAt, weather.journal)
    let (loop, answer) := self.loop.serve object spans weather.writtenAt weather.journal
    (⟨loop, self.journaled ++ journaled, self.own ++ journaled⟩,
      if weather.heard then answer else .error .unavailable)
  else (self, .error .unavailable)

/-- Seals a bundle, writes it, and commits what it holds. -/
def flush (self : Shard) (weather : Weather) (bundle : BundleBuilder) :
    Shard × Except FlushError CommitAck :=
  let self := weather.others.foldl serveOther self
  match bundle.seal with
  | .error source => (self, .error (.store source))
  | .ok built => match weather.nextKey with
    | .error source => (self, .error (.store source))
    | .ok key => match weather.put with
      | .error source => (self, .error (.store source))
      | .ok () => match self.commit weather key built.spans with
        | (self, .ok ack) => (self, .ok ack)
        | (self, .error source) => (self, .error (.commit source))

end Shard

/-- Puts one bundle's outcomes at the pushes they answer. -/
def routed : List SpanOutcome → List Nat → List (Option PushOutcome) →
    Except FlushError (List (Option PushOutcome))
  | [], _, outcomes => .ok outcomes
  | _ :: _, [], _ => .error (.store .indexObjectMismatch)
  | outcome :: rest, nth :: route, outcomes =>
    routed rest route (outcomes.set nth (some (.ofSpan outcome)))

def collected (outcomes : List (Option PushOutcome)) : Except FlushError (List PushOutcome) :=
  outcomes.mapM fun outcome => match outcome with
    | some outcome => .ok outcome
    | none => .error (.store .indexObjectMismatch)

/-- The bundles from `index` on, each with its route. The first that fails ends it. -/
def flushBundles (weather : Nat → Weather) : Nat → List BundleBuilder → List (List Nat) → Shard →
    List (Option PushOutcome) → Shard × Except FlushError (List PushOutcome)
  | _, [], _, shard, outcomes => (shard, collected outcomes)
  | index, bundle :: bundles, routes, shard, outcomes =>
    match shard.flush (weather index) bundle with
    | (shard, .error error) => (shard, .ok (failedOutcomes outcomes (failureCode error)))
    | (shard, .ok ack) => match routes with
      | [] => (shard, .error (.store .indexObjectMismatch))
      | route :: routes => match routed ack.outcomes route outcomes with
        | .error error => (shard, .error error)
        | .ok outcomes => flushBundles weather (index + 1) bundles routes shard outcomes

def flush (weather : Nat → Weather) (shard : Shard) (pending : Pending) :
    Shard × Except FlushError (List PushOutcome) :=
  if pending.pushed = 0 then (shard, .ok [])
  else flushBundles weather 0 pending.bundles pending.routes shard
    (List.replicate pending.pushed none)

structure ResponsePartition where
  index : Int
  errorCode : Int
  baseOffset : Int
  deriving DecidableEq, Repr

def unassigned : Int := -1

def verdict : Slot → Except FlushError (List PushOutcome) → Int × Int
  | .refused code, _ => (code, unassigned)
  | .pushed nth, .ok outcomes => match outcomes[nth]? with
    | some (.assigned offset) => (ErrorCode.none, offset)
    | some (.refused code) => (code, unassigned)
    | some (.failed code) => (code, unassigned)
    | none => (ErrorCode.unknownServerError, unassigned)
  | .pushed _, .error error => (failureCode error, unassigned)

def answer (flushed : Except FlushError (List PushOutcome)) (slot : PartitionSlot) :
    ResponsePartition :=
  ⟨slot.index, (verdict slot.slot flushed).1, (verdict slot.slot flushed).2⟩

inductive TopicIdentity where
  | name (name : String)
  | id (topicId : List UInt8)
  deriving DecidableEq, Repr

def buildResponseTopics (version : Int) (flushed : Except FlushError (List PushOutcome))
    (outcomes : List TopicOutcome) : List (TopicIdentity × List ResponsePartition) :=
  outcomes.filterMap fun topic =>
    if version ≤ 12 then
      topic.name.map fun name => (.name name, topic.partitions.map (answer flushed))
    else some (.id topic.topicId, topic.partitions.map (answer flushed))

inductive HandlerResponse where
  | close
  | silent
  | reply (topics : List (TopicIdentity × List ResponsePartition))
  deriving DecidableEq, Repr

/-- A shape no response can express: from a name alone, with no name. -/
def unanswerable (request : Request) (version : Int) : Bool :=
  decide (version ≤ 12) && request.topics.any fun topic => topic.name.isNone

def modeOf (request : Request) (version : Int) : TopicMode where
  version := version
  acksValid := decide (-1 ≤ request.acks) && decide (request.acks ≤ 1)

def handle (version : Int) (authz : AuthzContext) (request : Request) (weather : Nat → Weather)
    (shard : Shard) : Shard × HandlerResponse :=
  if unanswerable request version then (shard, .close)
  else
    let (pending, outcomes) := threaded (oneTopic (modeOf request version) authz) {} request.topics
    let (shard, flushed) := flush weather shard pending
    if request.acks = 0 then (shard, .silent)
    else (shard, .reply (buildResponseTopics version flushed outcomes))

end Oqueue.Broker.Produce
