import Oqueue.Broker.CatalogSpecs
import Oqueue.Codec.ErrorCodes
import Oqueue.Library.Deadlines

/-!
# CreateTopics and DeleteTopics

A topic is created or deleted through the shared catalog, under a deadline that may drop the
catalog's call at any request. Who creates a topic may see it, on this node at once and on
every node when its grants are loaded again.
-/

namespace Oqueue.Broker

open Segment Bytes Asks

/-- What the brokers keep beside the catalog: each node's grants, and the topics that were loaded
for a creator, of which any may still be cached; and every grant that a creation or a load
ever made. -/
structure TopicAccess where
  grants : Nat → TopicGrants
  loads : List (Nat × Principal × List TopicId) := []
  granted : List (Principal × TopicId) := []

namespace TopicGrants

def grant (self : TopicGrants) (principal : Principal) (topic : TopicId) : TopicGrants :=
  if self.canSee principal topic then self else self ++ [(principal, topic)]

def revokeTopic (self : TopicGrants) (topic : TopicId) : TopicGrants :=
  self.filter fun held => decide (held.2 ≠ topic)

end TopicGrants

inductive AccessRequest where
  | grant (node : Nat) (principal : Principal) (topic : TopicId)
  | revokeTopic (node : Nat) (topic : TopicId)
  /-- The topics that an earlier load found, if they are still cached. -/
  | creatorTopics (node : Nat) (principal : Principal)
  | loaded (node : Nat) (principal : Principal) (topics : List TopicId)
  /-- What a load is found to be worth, topic by topic. -/
  | restore (node : Nat) (principal : Principal) (live deleted : List TopicId)

def AccessRequest.Answer : AccessRequest → Type
  | .creatorTopics _ _ => Option (List TopicId)
  | _ => Unit

namespace TopicAccess

def onNode (self : TopicAccess) (node : Nat) (change : TopicGrants → TopicGrants) : TopicAccess :=
  { self with grants := Function.update self.grants node (change (self.grants node)) }

def grant (self : TopicAccess) (node : Nat) (principal : Principal) (topic : TopicId) :
    TopicAccess :=
  { self.onNode node fun grants => grants.grant principal topic with
    granted := (principal, topic) :: self.granted }

def revokeTopic (self : TopicAccess) (node : Nat) (topic : TopicId) : TopicAccess :=
  self.onNode node fun grants => grants.revokeTopic topic

/-- The topics that one of the loads of a creator on a node found. -/
def cached (self : TopicAccess) (node : Nat) (principal : Principal) (pick : Option Nat) :
    Option (List TopicId) := do
  let topics := self.loads.filterMap fun load =>
    if load.1 = node ∧ load.2.1 = principal then some load.2.2 else none
  topics[← pick]?

def serve (self : TopicAccess) (pick : Option Nat) :
    (request : AccessRequest) → TopicAccess × request.Answer
  | .grant node principal topic => (self.grant node principal topic, ())
  | .revokeTopic node topic => (self.revokeTopic node topic, ())
  | .creatorTopics node principal => (self, self.cached node principal pick)
  | .loaded node principal topics =>
    ({ self with loads := (node, principal, topics) :: self.loads }, ())
  | .restore node principal live deleted =>
    let granted := live.foldl (fun access topic => access.grant node principal topic) self
    (deleted.foldl (fun access topic => access.revokeTopic node topic) granted, ())

end TopicAccess

/-- What a handler does: catalog calls, waited for or given up, and grants. -/
abbrev Admin (α : Type) :=
  Asks (Await CatalogRequest AccessRequest)
    (Await.Answer CatalogRequest.Answer AccessRequest.Answer) α

def Admin.access (request : AccessRequest) : Admin request.Answer := Await.own request

/-- A catalog call under a deadline; none is a deadline that passed. -/
def Admin.timeout {α : Type} (call : CatalogCall α) : Admin (Option (Except Error α)) :=
  Await.within call.run

structure CreatableReplicaAssignment where
  partitionIndex : Int
  brokerIds : List Int
  deriving DecidableEq

structure CreatableTopicConfig where
  name : String
  value : Option String
  deriving DecidableEq

structure CreatableTopic where
  name : String
  numPartitions : Int
  replicationFactor : Int
  assignments : List CreatableReplicaAssignment := []
  configs : List CreatableTopicConfig := []
  deriving DecidableEq

structure CreateTopicsResponseTopic where
  name : String
  topicId : BitVec 128
  errorCode : Int
  errorMessage : Option String
  numPartitions : Int
  replicationFactor : Int
  deriving DecidableEq

structure CreateContext where
  node : Nat
  validateOnly : Bool
  authorized : Bool
  principal : Option Principal
  named : ∀ creator, principal = some creator → creator.isEmpty = false
  deriving DecidableEq

namespace CreateTopics

def maxTopicNameLen : Nat := 249
def maxPartitions : Nat := 1000

def isAsciiAlphanumeric (byte : UInt8) : Bool :=
  (0x30 ≤ byte && byte ≤ 0x39) || (0x41 ≤ byte && byte ≤ 0x5a) || (0x61 ≤ byte && byte ≤ 0x7a)

def validTopicName (name : String) : Bool :=
  !name.isEmpty && decide ((utf8 name).length ≤ maxTopicNameLen) && name != "." && name != ".." &&
    (utf8 name).all fun byte =>
      isAsciiAlphanumeric byte || byte = 0x2e || byte = 0x5f || byte = 0x2d

def askedPartitions (numPartitions : Int) : Except (Int × String) Nat :=
  if numPartitions = -1 then .ok 1
  else if numPartitions < 0 then .error (ErrorCode.invalidPartitions, "invalid partition count")
  else
    let partitions := numPartitions.toNat
    if partitions = 0 ∨ partitions > maxPartitions then
      .error (ErrorCode.invalidPartitions, "invalid partition count")
    else .ok partitions

def validate (requested : CreatableTopic) : Except (Int × String) (TopicId × Nat) :=
  if !validTopicName requested.name then
    .error (ErrorCode.invalidTopicException, "invalid topic name")
  else match TopicId.new requested.name with
    | .error _ => .error (ErrorCode.invalidTopicException, "invalid topic name")
    | .ok name => match askedPartitions requested.numPartitions with
      | .error refused => .error refused
      | .ok partitions =>
        if requested.replicationFactor ≠ -1 ∧ requested.replicationFactor ≠ 1 then
          .error (ErrorCode.invalidReplicationFactor,
            "single-node broker requires replication factor -1 or 1")
        else if !requested.assignments.isEmpty || !requested.configs.isEmpty then
          .error (ErrorCode.invalidRequest, "manual assignments and topic configs are unsupported")
        else .ok (name, partitions)

def success (name : TopicId) (partitions : Nat) (replicationFactor : Int)
    (topicId : BitVec 128) : CreateTopicsResponseTopic where
  name := name.name
  topicId := topicId
  errorCode := ErrorCode.none
  errorMessage := none
  numPartitions := min partitions (2 ^ 31 - 1)
  replicationFactor := if replicationFactor = -1 then 1 else replicationFactor

def alreadyExists (name : TopicId) (partitions : Nat) (replicationFactor : Int)
    (topicId : BitVec 128) : CreateTopicsResponseTopic :=
  { success name partitions replicationFactor topicId with
    errorCode := ErrorCode.topicAlreadyExists
    errorMessage := some "topic already exists" }

/-- The entry that is there afterwards, and whether this request created it: without a principal
it always says so. -/
def persist (name : TopicId) (partitions : Nat) (principal : Option Principal) :
    Admin (Option (Option (CatalogEntry × Bool))) := do
  match principal with
  | some creator =>
    return (← Admin.timeout (CatalogCall.insertOwned name partitions creator)).map Except.toOption
  | none =>
    return (← Admin.timeout (CatalogCall.insert name partitions)).map fun entry =>
      entry.toOption.map fun entry => (entry, true)

def grantCreated (context : CreateContext) (name : TopicId) : Admin Unit := do
  match context.principal with
  | some creator => Admin.access (.grant context.node creator name)
  | none => return ()

def createOne (requested : CreatableTopic) (context : CreateContext) :
    Admin CreateTopicsResponseTopic := do
  let invalid (code : Int) (message : String) : CreateTopicsResponseTopic :=
    { name := requested.name, topicId := 0, errorCode := code, errorMessage := some message,
      numPartitions := 0, replicationFactor := 0 }
  if !context.authorized then
    return invalid ErrorCode.topicAuthorizationFailed "CreateTopics is not authorized"
  else match validate requested with
    | .error (code, message) => return invalid code message
    | .ok (name, partitions) =>
      if context.validateOnly then return success name partitions requested.replicationFactor 0
      else match ← persist name partitions context.principal with
        | none => return invalid ErrorCode.requestTimedOut "CreateTopics timed out"
        | some none => return invalid ErrorCode.unknownServerError "catalog write failed"
        | some (some (entry, created)) =>
          if !created then
            return alreadyExists name entry.partitions requested.replicationFactor entry.id
          else
            grantCreated context name
            return success name entry.partitions requested.replicationFactor entry.id

end CreateTopics

theorem CreateTopics.askedPartitions_spec (numPartitions : Int) :
    Tells (· ≤ maxPartitions) (·.1 ≠ ErrorCode.none) (askedPartitions numPartitions) := by
  have refused : ErrorCode.invalidPartitions ≠ ErrorCode.none := by decide
  unfold askedPartitions
  split
  · exact (by decide : 1 ≤ maxPartitions)
  · split
    · exact refused
    · dsimp only
      split
      · exact refused
      · rename_i fits
        exact Nat.le_of_not_lt fun more => fits (.inr more)

theorem CreateTopics.validate_spec (requested : CreatableTopic) :
    Tells (fun valid => valid.1.Typed ∧ valid.2 ≤ maxPartitions) (·.1 ≠ ErrorCode.none)
      (validate requested) := by
  have named : ErrorCode.invalidTopicException ≠ ErrorCode.none := by decide
  have replicated : ErrorCode.invalidReplicationFactor ≠ ErrorCode.none := by decide
  have configured : ErrorCode.invalidRequest ≠ ErrorCode.none := by decide
  unfold validate
  split
  · exact named
  · cases made : TopicId.new requested.name with
    | error e => exact named
    | ok name =>
      have asked := askedPartitions_spec requested.numPartitions
      dsimp only
      cases counted : askedPartitions requested.numPartitions with
      | error refused =>
        rw [counted] at asked
        exact asked
      | ok partitions =>
        rw [counted] at asked
        dsimp only
        split
        · exact replicated
        · split
          · exact configured
          · exact ⟨((StoredCatalog.makes_topic _ _).mp made).2, asked⟩

structure DeletableTopic where
  name : Option String
  topicId : BitVec 128
  deriving DecidableEq

structure DeleteTopicsResponseTopic where
  name : Option String
  topicId : BitVec 128
  errorCode : Int
  errorMessage : Option String
  deriving DecidableEq

/-- What a node's topic cache answers while a request is under way: the name it holds for the id,
and whether it still takes what is read now. -/
structure NameCache where
  held : Option String := none
  remembers : Bool := true
  deriving DecidableEq

/-- One topic of a request, and where it is handled. -/
structure DeleteContext where
  node : Nat
  version : Int
  authorized : Bool
  cache : NameCache := {}
  deriving DecidableEq

namespace DeleteTopics

/-- The catalog's deletion. After a failure the topic is looked up once more, which only the
topic cache makes use of. -/
def clusterDelete (name : TopicId) (expectedId : Option (BitVec 128)) :
    CatalogCall TopicDeleteOutcome :=
  tryCatch (CatalogCall.deleteTopic name expectedId) fun error => do
    let _ ← tryCatch (CatalogCall.find name) fun _ => return none
    throw error

def topicNameById (cache : NameCache) (id : BitVec 128) : Admin (Option (Option String)) := do
  match cache.held with
  | some name => return some (some name)
  | none => match ← Admin.timeout (CatalogCall.findId id) with
    | none => return none
    | some (.ok (some entry)) =>
      return some (if cache.remembers then some entry.name.name else none)
    | some _ => return some none

def revokeTopic (node : Nat) (name : TopicId) : Admin Unit :=
  Admin.access (.revokeTopic node name)

def reconcileInterruptedDelete (node : Nat) (name : TopicId) : Admin Unit := do
  match ← Admin.timeout (CatalogCall.find name) with
  | some (.ok none) => revokeTopic node name
  | _ => return ()

/-- The name to delete, or the answer to a request that names none. -/
def resolve (requested : DeletableTopic) (context : DeleteContext)
    (expectedId : Option (BitVec 128))
    (invalid : Int → String → Option String → BitVec 128 → DeleteTopicsResponseTopic) :
    Admin (Except DeleteTopicsResponseTopic TopicId) := do
  match requested.name with
  | some name => match TopicId.new name with
    | .ok name => return .ok name
    | .error _ =>
      return .error (invalid ErrorCode.invalidTopicException "invalid topic name" requested.name
        requested.topicId)
  | none => match expectedId with
    | none =>
      return .error (invalid ErrorCode.invalidRequest
        "a UUID-only delete requires a non-nil topic id" none requested.topicId)
    | some id => match ← topicNameById context.cache id with
      | none =>
        return .error (invalid ErrorCode.requestTimedOut "DeleteTopics timed out" none
          requested.topicId)
      | some none =>
        return .error (invalid ErrorCode.unknownTopicId "unknown topic id" none requested.topicId)
      | some (some name) => match TopicId.new name with
        | .ok name => return .ok name
        | .error _ =>
          return .error (invalid ErrorCode.invalidTopicException "invalid topic name" none
            requested.topicId)

def deleteOne (requested : DeletableTopic) (context : DeleteContext) :
    Admin DeleteTopicsResponseTopic := do
  let invalid (code : Int) (message : String) (name : Option String) (id : BitVec 128) :
      DeleteTopicsResponseTopic :=
    { name, topicId := id, errorCode := code,
      errorMessage := if 5 ≤ context.version then some message else none }
  if !context.authorized then
    return invalid ErrorCode.topicAuthorizationFailed "DeleteTopics is not authorized"
      requested.name requested.topicId
  else
    let expectedId := if 6 ≤ context.version ∧ requested.topicId ≠ 0 then some requested.topicId
      else none
    match ← resolve requested context expectedId invalid with
    | .error response => return response
    | .ok name => match ← Admin.timeout (clusterDelete name expectedId) with
      | none =>
        reconcileInterruptedDelete context.node name
        return invalid ErrorCode.requestTimedOut "DeleteTopics timed out" (some name.name)
          requested.topicId
      | some (.error _) =>
        reconcileInterruptedDelete context.node name
        return invalid ErrorCode.unknownServerError "catalog delete failed" (some name.name)
          requested.topicId
      | some (.ok (.deleted entry)) =>
        revokeTopic context.node name
        return invalid ErrorCode.none "" (some name.name) entry.id
      | some (.ok (.alreadyDeleted id)) =>
        revokeTopic context.node name
        return invalid ErrorCode.unknownTopicOrPartition "topic is deleted" (some name.name) id
      | some (.ok .missing) =>
        return invalid ErrorCode.unknownTopicOrPartition "unknown topic" (some name.name)
          (expectedId.getD 0)
      | some (.ok (.staleId _ actual)) =>
        return invalid ErrorCode.unknownTopicId "topic id is stale" (some name.name) actual

end DeleteTopics

namespace CreatorGrants

def listPage : Nat := 1000

def creatorPageIsFull (len : Nat) : Bool := len = listPage

def creatorPageIsDone (full : Bool) (after : Option TopicId) : Bool := !full || after.isNone

/-- One page after another; others may create topics for as long as it goes on. -/
def loadCreatorTopics (root : List UInt8) (creator : Principal) (pageFuel : Nat) :
    Nat → Option TopicId → List TopicId → CatalogCall (Option (List TopicId))
  | 0, _, _ => return none
  | fuel + 1, after, topics => do
    match ← CatalogCall.ownedPage root creator pageFuel after listPage with
    | none => return none
    | some page =>
      if creatorPageIsDone (creatorPageIsFull page.length) page.getLast? then
        return some (topics ++ page)
      else loadCreatorTopics root creator pageFuel fuel page.getLast? (topics ++ page)

/-- An earlier load's topics, or those of a load of its own, if it ends in time. -/
def creatorTopics (root : List UInt8) (node : Nat) (creator : Principal) (pageFuel fuel : Nat) :
    Admin (Option (List TopicId)) := do
  match ← Admin.access (.creatorTopics node creator) with
  | some topics => return some topics
  | none => match ← Admin.timeout (loadCreatorTopics root creator pageFuel fuel none []) with
    | some (.ok (some topics)) =>
      Admin.access (.loaded node creator topics)
      return some topics
    | _ => return none

/-- Which of the topics are there and which are not; a lookup that fails leaves one out. -/
def validate : List TopicId → List TopicId → List TopicId → Admin (List TopicId × List TopicId)
  | [], live, deleted => return (live, deleted)
  | topic :: topics, live, deleted => do
    match ← Await.whole (CatalogCall.find topic).run with
    | .ok (some _) => validate topics (live ++ [topic]) deleted
    | .ok none => validate topics live (deleted ++ [topic])
    | .error _ => validate topics live deleted

def hydrate (root : List UInt8) (node : Nat) (creator : Principal) (pageFuel fuel : Nat) :
    Admin Unit := do
  match ← creatorTopics root node creator pageFuel fuel with
  | none => return ()
  | some topics =>
    let (live, deleted) ← validate topics [] []
    Admin.access (.restore node creator live deleted)

end CreatorGrants

inductive TopicOp where
  | create (requested : CreatableTopic) (context : CreateContext)
  | delete (requested : DeletableTopic) (context : DeleteContext)
  /-- What a request of an authenticated client does first. -/
  | hydrate (node : Nat) (creator : Principal) (pageFuel fuel : Nat)
  /-- The store serves a request that was given up. -/
  | straggler (place : Nat)
  deriving DecidableEq

inductive TopicAnswer where
  | created (response : CreateTopicsResponseTopic)
  | deleted (response : DeleteTopicsResponseTopic)
  | nothing
  deriving DecidableEq

/-- One topic of a request is one call; those of a request come one after another. -/
def TopicOp.program (root : List UInt8) : TopicOp → Admin TopicAnswer
  | .create requested context => return .created (← CreateTopics.createOne requested context)
  | .delete requested context => return .deleted (← DeleteTopics.deleteOne requested context)
  | .hydrate node creator pageFuel fuel => do
    CreatorGrants.hydrate root node creator pageFuel fuel
    return .nothing
  | .straggler place => do
    let _ ← Await.landed place
    return .nothing

end Oqueue.Broker
