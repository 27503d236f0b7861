import Oqueue.Broker.Authz
import Oqueue.Broker.Read
import Oqueue.Codec.ErrorCodes

/-!
# `Fetch`

One pass over a request reads its partitions in order, out of one budget that the first
partition to return anything may overshoot. The index may move between a partition's
reads of it, since each comes after an await.
-/

namespace Oqueue.Broker

def readBudgetBytes : Nat := 1024 * 1024

structure FetchPartition where
  index : Int
  fetchOffset : Int
  partitionMaxBytes : Int
  deriving DecidableEq, Repr

structure FetchTopic where
  /-- `none` from the version that names topics by id. -/
  name : Option String
  topicId : Nat
  partitions : List FetchPartition
  deriving DecidableEq, Repr

structure FetchRequest where
  maxBytes : Int
  topics : List FetchTopic
  deriving DecidableEq, Repr

structure Node where
  store : ObjectKey → ByteRange → Except Error (List UInt8)
  sliceRegion : TopicId → Nat → List UInt8 → Except Error (List UInt8)
  partitionCount : String → Option Nat
  topicNameById : Nat → Option String

def Node.cluster (self : Node) (index : IndexState) : Cluster :=
  ⟨index, self.store, self.sliceRegion⟩

/-- The index as one partition's handler finds it: when it resolves the partition, when it
looks for a manifest and when it looks for batches. -/
structure Moments where
  resolving : IndexState
  manifest : IndexState
  finding : IndexState

def Moments.still (index : IndexState) : Moments := ⟨index, index, index⟩

structure Budget where
  total : Nat
  left : Nat
  returnedAnything : Bool
  deriving DecidableEq, Repr

namespace Budget

def new (maxBytes : Int) : Budget :=
  ⟨min maxBytes.toNat readBudgetBytes, min maxBytes.toNat readBudgetBytes, false⟩

def mayOvershoot (self : Budget) : Bool := !self.returnedAnything

def share (self : Budget) (partitionMaxBytes : Int) : Nat := min partitionMaxBytes.toNat self.left

def allowance (self : Budget) (partitionMaxBytes : Int) : Allowance :=
  ⟨self.share partitionMaxBytes, self.mayOvershoot⟩

def spend (self : Budget) (cost : Nat) (returnedRecords : Bool) : Budget :=
  { self with
    left := self.left - cost
    returnedAnything := self.returnedAnything || returnedRecords }

end Budget

/-- One partition's answer, with the batches its records are made of. -/
structure PartitionOutcome where
  cost : Nat
  index : Int
  errorCode : Int
  highWatermark : Int
  lastStableOffset : Int
  logStartOffset : Int
  served : List (IndexedBatch × List UInt8)

def PartitionOutcome.records (self : PartitionOutcome) : List UInt8 := recordsOf self.served

def offsetUnset : Int := -1

/-- A refusal, with the watermark of the partition if the name could be one's. -/
def refused (current : IndexState) (topic : Option String) (index errorCode : Int) :
    PartitionOutcome where
  cost := 0
  index := index
  errorCode := errorCode
  highWatermark := match topic.map TopicId.new, PartitionId.new index with
    | some (.ok topic), .ok partition => current.endOffset (topic, partition)
    | _, _ => 0
  lastStableOffset := offsetUnset
  logStartOffset := offsetUnset
  served := []

namespace Node

variable (self : Node)

def hosts (name : String) (index : Int) : Bool :=
  decide (0 ≤ index) && (self.partitionCount name).any fun count => decide (index.toNat < count)

/-- The partition, its end and the offset to read from; or the error, with a watermark. -/
def resolve (current : IndexState) (topic : Option String) (unknown index fetchOffset : Int) :
    Except (Int × Int) (TopicId × Nat × Int × Nat) :=
  match topic with
  | none => .error (unknown, 0)
  | some name =>
    if !self.hosts name index then .error (ErrorCode.unknownTopicOrPartition, 0)
    else match TopicId.new name, PartitionId.new index with
      | .ok topicId, .ok partition =>
        let high : Int := current.endOffset (topicId, partition)
        match Offset.new fetchOffset with
        | .error _ => .error (ErrorCode.offsetOutOfRange, high)
        | .ok start =>
          if high < fetchOffset then .error (ErrorCode.offsetOutOfRange, high)
          else .ok (topicId, partition, high, start)
      | _, _ => .error (ErrorCode.unknownTopicOrPartition, 0)

/-- `Cluster.read`, over an index that moves while it waits for the manifest tier. -/
def readAcross (moments : Moments) (topic : TopicId) (partition start : Nat)
    (allowance : Allowance) (objects : FetchedObjects) :
    Except ReadFailure Broker.Read × FetchedObjects :=
  let (resolved, objects) := (self.cluster moments.manifest).manifestPage topic partition start
    allowance objects
  match resolved.batches with
  | .error error => (.error ⟨error, resolved.cost⟩, objects)
  | .ok fromManifest =>
    match moments.finding.findBatches (topic, partition) start allowance.bytes with
    | .error error => (.error ⟨error, resolved.cost⟩, objects)
    | .ok fromIndex => (self.cluster moments.finding).readPage topic partition allowance
        (fromManifest ++ fromIndex) [] resolved.cost objects

/-- What a failed read is refused with. -/
def refusalCode : Error → Int
  | .objectNotFound _ | .belowLogStart _ _ => ErrorCode.offsetOutOfRange
  | _ => ErrorCode.offsetNotAvailable

def onePartition (moments : Moments) (topic : Option String) (unknown : Int)
    (asked : FetchPartition) (allowance : Allowance) (objects : FetchedObjects) :
    PartitionOutcome × FetchedObjects :=
  let refused (cost : Nat) (errorCode highWatermark : Int) : PartitionOutcome :=
    ⟨cost, asked.index, errorCode, highWatermark, offsetUnset, offsetUnset, []⟩
  match self.resolve moments.resolving topic unknown asked.index asked.fetchOffset with
  | .error (code, high) => (refused 0 code high, objects)
  | .ok (topicId, partition, high, start) =>
    match self.readAcross moments topicId partition start allowance objects with
    | (.ok read, objects) =>
      (⟨max read.fetched read.records.length, asked.index, ErrorCode.none, high, high, 0,
        read.served⟩, objects)
    | (.error failure, objects) =>
      (refused failure.fetched (refusalCode failure.error) high, objects)

def resolvedName (topic : FetchTopic) (version : Nat) : Option String :=
  if 13 ≤ version then self.topicNameById topic.topicId else topic.name

/-- A topic's partitions in order, each against what the ones before it left of the budget. -/
def readPartitions (index : IndexState) (authorized : Bool) (name : Option String) (unknown : Int) :
    List FetchPartition → Budget → FetchedObjects →
      List PartitionOutcome × Budget × FetchedObjects
  | [], budget, objects => ([], budget, objects)
  | asked :: rest, budget, objects =>
    if authorized then
      let (outcome, objects) := self.onePartition (.still index) name unknown asked
        (budget.allowance asked.partitionMaxBytes) objects
      let (outcomes, after) := readPartitions index authorized name unknown rest
        (budget.spend outcome.cost (!outcome.records.isEmpty)) objects
      (outcome :: outcomes, after)
    else
      let (outcomes, after) := readPartitions index authorized name unknown rest budget objects
      (refused index name asked.index ErrorCode.topicAuthorizationFailed :: outcomes, after)

def oneTopic (index : IndexState) (authz : AuthzContext) (version : Nat) (topic : FetchTopic)
    (budget : Budget) (objects : FetchedObjects) :
    List PartitionOutcome × Budget × FetchedObjects :=
  let name := self.resolvedName topic version
  let unknown := if 13 ≤ version then ErrorCode.unknownTopicId
    else ErrorCode.unknownTopicOrPartition
  self.readPartitions index (name.all fun name => topicAuthorized name authz) name unknown
    topic.partitions budget objects

/-- The topics of a pass, with what each one's partitions were answered. -/
def readTopics (index : IndexState) (authz : AuthzContext) (version : Nat) :
    List FetchTopic → Budget → FetchedObjects → List (List PartitionOutcome) × FetchedObjects
  | [], _, objects => ([], objects)
  | topic :: rest, budget, objects =>
    let (outcomes, budget, objects) := self.oneTopic index authz version topic budget objects
    let (later, objects) := readTopics index authz version rest budget objects
    (outcomes :: later, objects)

def readAll (index : IndexState) (authz : AuthzContext) (version : Nat) (request : FetchRequest)
    (objects : FetchedObjects) : List (List PartitionOutcome) × FetchedObjects :=
  self.readTopics index authz version request.topics (.new request.maxBytes) objects

end Node

end Oqueue.Broker
