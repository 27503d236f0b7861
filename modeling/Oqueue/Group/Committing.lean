import Oqueue.Broker.Authz
import Oqueue.Codec.ErrorCodes
import Oqueue.Core.FooterFormat
import Oqueue.Group.Appending
import Oqueue.Group.State

/-!
# Offset commits beside the group's transitions

A commit request is fenced once, on whether its member is tracked and on what the
coordinator has of the group, and then logs its offsets one after the other. Members come
and go and transitions are served in between; what a request does between two of its waits
is one step, and the two readings of its fence are two.
-/

namespace Oqueue.OffsetCommit

open Broker

abbrev ProperGroup := { group : GroupId // group.name.isEmpty = false }

abbrev ProperTopic := { topic : TopicId // topic.Typed }

abbrev GroupGrants := List (Principal × GroupId)

structure GroupAuthzContext where
  principal : Option Principal
  credentialsConfigured : Bool
  groupGrants : GroupGrants

def groupAuthorized (group : GroupId) (authz : GroupAuthzContext) : Bool :=
  if !authz.credentialsConfigured then true
  else match authz.principal with
    | none => false
    | some principal => decide ((principal, group) ∈ authz.groupGrants)

structure RequestPartition where
  partitionIndex : Int
  committedOffset : Int
  index_typed : -(2 ^ 31) ≤ partitionIndex ∧ partitionIndex < 2 ^ 31
  offset_typed : -(2 ^ 63) ≤ committedOffset ∧ committedOffset < 2 ^ 63

structure RequestTopic where
  name : String
  partitions : List RequestPartition

structure Request where
  groupId : String
  generationId : Int
  memberId : String
  topics : List RequestTopic

structure ResponsePartition where
  partitionIndex : Int
  errorCode : Int
  deriving DecidableEq, Repr

structure ResponseTopic where
  name : String
  partitions : List ResponsePartition
  deriving DecidableEq, Repr

/-- Every partition the topic named, answered the same refusal code. -/
def refusedTopic (topic : RequestTopic) (errorCode : Int) : ResponseTopic :=
  ⟨topic.name, topic.partitions.map fun partition => ⟨partition.partitionIndex, errorCode⟩⟩

def topLevelRefusal (request : Request) (errorCode : Int) : List ResponseTopic :=
  request.topics.map (refusedTopic · errorCode)

def RequestPartition.record (partition : RequestPartition) (group : ProperGroup)
    (topic : ProperTopic) : GroupLog.Record :=
  ⟨.offsetCommitted group topic partition.partitionIndex partition.committedOffset,
    group.property, topic.property, partition.index_typed, partition.offset_typed⟩

/-- One topic's own commit: what is answered, what is being logged and by which writer, and
what is left. -/
structure TopicCommit where
  name : String
  topic : ProperTopic
  answered : List ResponsePartition := []
  inFlight : Option (RequestPartition × Nat) := none
  partitions : List RequestPartition

/-- The first of these partitions is being logged by this writer. -/
def TopicCommit.sending (topic : TopicCommit) (partition : RequestPartition) (id : Nat)
    (partitions : List RequestPartition) : TopicCommit :=
  { topic with inFlight := some (partition, id), partitions }

/-- A request that passed the fence. -/
structure Committing where
  group : ProperGroup
  answered : List ResponseTopic := []
  topic : Option TopicCommit := none
  topics : List RequestTopic

inductive Phase where
  | arrived
  /-- Whether the member is tracked is read, and the group is not. -/
  | fencing (group : ProperGroup) (memberTracked : Bool)
  | committing (commit : Committing)
  | replied (response : List ResponseTopic)

structure Handler where
  request : Request
  authz : AuthzContext
  groupAuthz : GroupAuthzContext
  phase : Phase

/-- A record of a request, the instant it was appended: the group and the generation its
request names, and what the coordinator had of the group. -/
structure Appended where
  group : GroupId
  generation : Int
  entry : GroupLog.Entry
  record : Option GroupRecord
  deriving DecidableEq

structure World where
  log : GroupLog.World
  members : List (GroupId × String) := []
  /-- Whether the node still replays its logs. -/
  loading : Bool := false
  handlers : Nat → Option Handler := fun _ => none
  /-- For which group and generation a writer commits an offset; kept for the proofs. -/
  owners : Nat → Option (GroupId × Int) := fun _ => none
  appended : List Appended := []

inductive Event where
  | request (r : Nat) (request : Request) (authz : AuthzContext) (groupAuthz : GroupAuthzContext)
  /-- A request reads whether its member is tracked. -/
  | track (r : Nat)
  /-- A request reads what the coordinator has of its group, and is fenced. -/
  | fence (r : Nat)
  /-- A request goes on, with this writer if it logs an offset. -/
  | advance (r id : Nat)
  /-- A step of the group log's writers, or a transition is asked for. -/
  | log (action : GroupLog.Action)
  | register (group : GroupId) (member : String)
  /-- A member is removed, and the transition this asks for gets this writer. -/
  | remove (group : ProperGroup) (member : String) (id : Nat)
  | ready

namespace World

def setPhase (world : World) (r : Nat) (handler : Handler) (phase : Phase) : World :=
  { world with handlers := Function.update world.handlers r (some { handler with phase }) }

def isTracked (world : World) (group : GroupId) (member : String) : Bool :=
  decide ((group, member) ∈ world.members)

/-- `handle`, up to the tracked members. -/
def track (world : World) (r : Nat) (handler : Handler) : World :=
  let request := handler.request
  if proper : request.groupId.isEmpty = false then
    let group : ProperGroup := ⟨⟨request.groupId⟩, proper⟩
    if !groupAuthorized group handler.groupAuthz then
      world.setPhase r handler
        (.replied (topLevelRefusal request ErrorCode.groupAuthorizationFailed))
    else world.setPhase r handler (.fencing group (world.isTracked group request.memberId))
  else world.setPhase r handler (.replied (topLevelRefusal request ErrorCode.invalidRequest))

/-- The rest of `fence_commit`. -/
def fenceCommit (world : World) (r : Nat) (handler : Handler) (group : ProperGroup)
    (memberTracked : Bool) : World :=
  match fence {
    loadInProgress := world.loading
    memberTracked
    record := world.log.coordinator.record group
    generationId := some handler.request.generationId
    acceptableStates := some [.stable] } with
  | .error refused =>
    world.setPhase r handler (.replied (topLevelRefusal handler.request refused.errorCode))
  | .ok _ => world.setPhase r handler (.committing { group, topics := handler.request.topics })

def commitTopic (world : World) (r : Nat) (handler : Handler) (commit : Committing)
    (topic : RequestTopic) (topics : List RequestTopic) : World :=
  if !topicAuthorized topic.name handler.authz then
    world.setPhase r handler (.committing { commit with
      answered := commit.answered ++ [refusedTopic topic ErrorCode.topicAuthorizationFailed]
      topics })
  else if proper : topic.name.isEmpty = false then
    world.setPhase r handler (.committing { commit with
      topic := some { name := topic.name, topic := ⟨⟨topic.name⟩, proper⟩, partitions := topic.partitions }
      topics })
  else world.setPhase r handler (.committing { commit with
    answered := commit.answered ++ [refusedTopic topic ErrorCode.unknownTopicOrPartition]
    topics })

/-- What a partition is answered when its commit ends. -/
def codeOf : Except Error Unit → Int
  | .ok _ => ErrorCode.none
  | .error _ => ErrorCode.unknownServerError

def advance (world : World) (r id : Nat) (handler : Handler) (commit : Committing) :
    Option World :=
  match commit.topic with
  | none => match commit.topics with
    | [] => some (world.setPhase r handler (.replied commit.answered))
    | topic :: topics => some (world.commitTopic r handler commit topic topics)
  | some topic => match topic.inFlight with
    | some (partition, writer) => match (world.log.writers writer).map GroupLog.Writer.phase with
      | some (.answered answer) =>
        some (world.setPhase r handler (.committing { commit with topic := some { topic with
          answered := topic.answered ++ [⟨partition.partitionIndex, codeOf answer⟩]
          inFlight := none } }))
      | _ => none
    | none => match topic.partitions with
      | [] => some (world.setPhase r handler (.committing { commit with
          answered := commit.answered ++ [⟨topic.name, topic.answered⟩]
          topic := none }))
      | partition :: partitions =>
        (world.log.step (.commit id (partition.record commit.group topic.topic))).map fun log =>
          { world with
            log
            owners := Function.update world.owners id
              (some (commit.group.val, handler.request.generationId)) }.setPhase r handler
            (.committing { commit with topic := some (topic.sending partition id partitions) })

/-- What a step of the log's writers appended for requests. -/
def appending (world : World) (log : GroupLog.World) : List Appended :=
  (log.line.drop world.log.line.length).filterMap fun (id, entry) =>
    (world.owners id).map fun (group, generation) =>
      ⟨group, generation, entry, world.log.coordinator.record group⟩

/-- Every step of the log's writers, but that commits come from requests. -/
def logStep (world : World) (action : GroupLog.Action) : Option World :=
  match action with
  | .commit .. => none
  | action => (world.log.step action).map fun log =>
    { world with log, appended := world.appended ++ world.appending log }

/-- A member is removed; if it was tracked, the group is told. -/
def remove (world : World) (group : ProperGroup) (member : String) (id : Nat) : Option World :=
  if (group.val, member) ∈ world.members then
    let members := world.members.filter (· ≠ (group.val, member))
    let event : GroupEvent :=
      if members.any (·.1 = group.val) then .memberLeft else .allMembersGone
    { world with members }.logStep (.enqueue id ⟨.groupTransitioned group event, group.property⟩)
  else some world

def step (world : World) : Event → Option World
  | .request r request authz groupAuthz =>
    if (world.handlers r).isSome then none
    else some { world with
      handlers := Function.update world.handlers r (some ⟨request, authz, groupAuthz, .arrived⟩) }
  | .track r => (world.handlers r).bind fun handler => match handler.phase with
    | .arrived => some (world.track r handler)
    | _ => none
  | .fence r => (world.handlers r).bind fun handler => match handler.phase with
    | .fencing group memberTracked => some (world.fenceCommit r handler group memberTracked)
    | _ => none
  | .advance r id => (world.handlers r).bind fun handler => match handler.phase with
    | .committing commit => world.advance r id handler commit
    | _ => none
  | .log action => world.logStep action
  | .register group member =>
    if (group, member) ∈ world.members then some world
    else some { world with members := world.members ++ [(group, member)] }
  | .remove group member id => world.remove group member id
  | .ready => some { world with loading := false }

end World

end Oqueue.OffsetCommit
