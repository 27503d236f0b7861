import Oqueue.Broker.Catalog
import Oqueue.Codec.ErrorCodes
import Oqueue.Library.FairLock
import Oqueue.Library.Steps

/-!
# A node's view of the topic catalog

What the node resolved it keeps for a second. Creations and resolutions put an entry there
only if nothing was taken out since before they asked the catalog, and all topics share one
count of that. Each access to the cache, to the count and to the catalog is one step, and
any number of calls take their steps in any order, with whatever other nodes do to the
catalog in between.
-/

namespace Oqueue.Broker.Topics

/-- One served topic: its id and how many partitions it has. -/
structure Served where
  id : BitVec 128
  partitions : Nat
  keyDomain : KeyDomain
  cachedAt : Nat
  deriving DecidableEq, Repr

structure TopicCache where
  byName : Finmap fun _ : String => Served := ∅
  byId : Finmap fun _ : BitVec 128 => String := ∅

def topicCacheTtl : Nat := 1000000000

/-- What all calls on one node share. `created` has every entry there ever was, and `gone`
the names whose deletion was answered here. -/
structure Shared where
  catalog : Catalog := {}
  cache : TopicCache := {}
  cacheGeneration : Nat := 0
  now : Nat := 0
  created : Finmap fun _ : TopicId => CatalogEntry := ∅
  gone : List TopicId := []

/-- What a call does next, or its result. -/
inductive Turn (φ α : Type) where
  | goes (phase : φ)
  | answers (result : α)

/-- Where `served` stands. -/
inductive Serving where
  | asked
  | stale (id : BitVec 128)
  | missed
  | loaded (generation : Nat)
  | found (entry : CatalogEntry) (generation : Nat)
  | remembered
  deriving DecidableEq

/-- Where `topic_name_by_id` stands. -/
inductive Naming where
  | asked
  | held (name : String)
  | stale (name : String)
  | missed
  | loaded (generation : Nat)
  | found (entry : CatalogEntry) (generation : Nat)
  deriving DecidableEq

/-- Where `ensure_topic` or `create_topic` stands. -/
inductive Creating where
  | waiting
  | locked
  | loaded (name : TopicId) (generation : Nat)
  | made (entry : CatalogEntry) (generation : Nat)
  deriving DecidableEq

/-- Where `delete_topic` stands. -/
inductive Deleting where
  | waiting
  | locked
  | deleted (id : BitVec 128) (outcome : TopicDeleteOutcome)
  deriving DecidableEq

namespace Shared

def cacheIsFresh (shared : Shared) (served : Served) : Bool :=
  decide (shared.now - served.cachedAt < topicCacheTtl)

def exists_ (shared : Shared) (topic : String) : Option CatalogEntry :=
  shared.catalog.lookup ⟨topic⟩

def rememberIfGeneration (shared : Shared) (entry : CatalogEntry) (generation : Nat) :
    Shared × Option String :=
  if shared.cacheGeneration ≠ generation then (shared, none)
  else
    let served : Served := ⟨entry.id, entry.partitions, entry.keyDomain, shared.now⟩
    ({ shared with cache := {
        byId := shared.cache.byId.insert served.id entry.name.name
        byName := shared.cache.byName.insert entry.name.name served } },
      some entry.name.name)

def forgetName (shared : Shared) (name : String) (id : BitVec 128) : Shared :=
  { shared with
    cacheGeneration := shared.cacheGeneration + 1
    cache := { byName := shared.cache.byName.erase name, byId := shared.cache.byId.erase id } }

/-- One step of `served`. -/
def serve (shared : Shared) (topic : String) :
    Serving → Shared × Turn Serving (Option Served)
  | .asked => match shared.cache.byName.lookup topic with
    | some hit =>
      if shared.cacheIsFresh hit then (shared, .answers (some hit))
      else (shared, .goes (.stale hit.id))
    | none => (shared, .goes .missed)
  | .stale id => match TopicId.new topic with
    | .error _ => (shared, .answers none)
    | .ok name => (shared.forgetName name.name id, .goes .missed)
  | .missed => match TopicId.new topic with
    | .error _ => (shared, .answers none)
    | .ok _ => (shared, .goes (.loaded shared.cacheGeneration))
  | .loaded generation => match shared.catalog.lookup ⟨topic⟩ with
    | none => (shared, .answers none)
    | some entry => (shared, .goes (.found entry generation))
  | .found entry generation =>
    ((shared.rememberIfGeneration entry generation).1, .goes .remembered)
  | .remembered => (shared, .answers (shared.cache.byName.lookup topic))

/-- One step of `topic_name_by_id`. -/
def nameById (shared : Shared) (id : BitVec 128) :
    Naming → Shared × Turn Naming (Option String)
  | .asked => match shared.cache.byId.lookup id with
    | some name => (shared, .goes (.held name))
    | none => (shared, .goes .missed)
  | .held name =>
    if (shared.cache.byName.lookup name).any shared.cacheIsFresh then (shared, .answers (some name))
    else (shared, .goes (.stale name))
  | .stale name => match TopicId.new name with
    | .error _ => (shared, .answers none)
    | .ok topic => (shared.forgetName topic.name id, .goes .missed)
  | .missed => (shared, .goes (.loaded shared.cacheGeneration))
  | .loaded generation => match shared.catalog.lookupId id with
    | none => (shared, .answers none)
    | some entry => (shared, .goes (.found entry generation))
  | .found entry generation =>
    let remembered := shared.rememberIfGeneration entry generation
    (remembered.1, .answers remembered.2)

def catalogCreate (shared : Shared) (name : TopicId) (partitions : Nat)
    (creator : Option Principal) : Except Error (Catalog × CatalogEntry) :=
  match creator with
  | none => shared.catalog.create name partitions
  | some creator => shared.catalog.createOwned name partitions creator

def withCreated (shared : Shared) (catalog : Catalog) (entry : CatalogEntry) : Shared :=
  { shared with catalog, created := shared.created.insert entry.name entry }

/-- One step of a creation that has the lifecycle lock. -/
def create (shared : Shared) (topic : String) (partitions : Nat) (creator : Option Principal) :
    Creating → Shared × Turn Creating (Option CatalogEntry)
  | .waiting => (shared, .goes .waiting)
  | .locked => match TopicId.new topic with
    | .error _ => (shared, .answers none)
    | .ok name => (shared, .goes (.loaded name shared.cacheGeneration))
  | .loaded name generation => match shared.catalogCreate name partitions creator with
    | .error _ => (shared, .answers none)
    | .ok (catalog, entry) => (shared.withCreated catalog entry, .goes (.made entry generation))
  | .made entry generation =>
    ((shared.rememberIfGeneration entry generation).1, .answers (some entry))

/-- One step of a deletion that has the lifecycle lock. -/
def delete (shared : Shared) (name : TopicId) (expectedId : Option (BitVec 128)) :
    Deleting → Shared × Turn Deleting TopicDeleteOutcome
  | .waiting => (shared, .goes .waiting)
  | .locked =>
    let (catalog, outcome) := shared.catalog.delete name expectedId
    match outcome with
    | .deleted entry => ({ shared with catalog }, .goes (.deleted entry.id outcome))
    | .alreadyDeleted id => ({ shared with catalog }, .goes (.deleted id outcome))
    | .missing | .staleId .. => ({ shared with catalog }, .answers outcome)
  | .deleted id outcome =>
    ({ shared.forgetName name.name id with gone := name :: shared.gone }, .answers outcome)

end Shared

/-- A resolution under way, with what was gone and what existed when it started. -/
structure Call (φ : Type) where
  phase : φ
  gone : List TopicId
  existed : Option CatalogEntry

/-- Where `resolve_topic` stands. -/
inductive Stage where
  | finding (call : Call Serving)
  | ensuring (phase : Creating)
  | counting (call : Call Serving)
  | identifying (partitionCount : Nat) (call : Call Serving)

inductive Task where
  | serving (topic : String) (call : Call Serving)
  | naming (id : BitVec 128) (call : Call Naming)
  | creating (topic : String) (partitions : Nat) (creator : Option Principal) (phase : Creating)
  | deleting (name : TopicId) (expectedId : Option (BitVec 128)) (phase : Deleting)
  | resolving (topic : String) (version : Int) (allowAutoTopicCreation : Bool) (stage : Stage)

structure ResolvedTopic where
  name : String
  topicId : BitVec 128
  errorCode : Int
  partitionCount : Nat
  deriving DecidableEq, Repr

/-- An answered resolution, with what was gone when it started and what the catalog had
when it started and when it ended; or an answered topic of a `Metadata` request, with the
entry that was created under its name. -/
inductive Answer where
  | served (topic : String) (gone : List TopicId) (existed exists_ : Option CatalogEntry)
    (result : Option Served)
  | named (id : BitVec 128) (gone : List TopicId) (existed exists_ : Option CatalogEntry)
    (result : Option String)
  | metadata (version : Int) (created : Option CatalogEntry) (resolved : ResolvedTopic)
  deriving DecidableEq

structure World where
  shared : Shared := {}
  lifecycle : FairLock Nat := {}
  tasks : Nat → Option Task := fun _ => none
  answers : List Answer := []

/-- What another node asks of the catalog. -/
inductive Elsewhere where
  | create (topic : String) (partitions : Nat) (keyDomain : KeyDomain)
  | createOwned (topic : String) (partitions : Nat) (creator : Principal)
  | delete (name : TopicId) (expectedId : Option (BitVec 128))

/-- A call, the lock's next grant, the next step of a call, or what happens elsewhere. -/
inductive Event where
  | serve (i : Nat) (topic : String)
  | nameById (i : Nat) (id : BitVec 128)
  | create (i : Nat) (topic : String) (partitions : Nat) (creator : Option Principal)
  | delete (i : Nat) (name : TopicId) (expectedId : Option (BitVec 128))
  | resolve (i : Nat) (topic : String) (version : Int) (allowAutoTopicCreation : Bool)
  | grant
  | advance (i : Nat)
  | elsewhere (call : Elsewhere)
  | tick (elapsed : Nat)

namespace World

def setTask (world : World) (i : Nat) (task : Option Task) : World :=
  { world with tasks := Function.update world.tasks i task }

def answer (world : World) (answer : Answer) : World :=
  { world with answers := world.answers ++ [answer] }

/-- A resolution of this name that starts now. -/
def call (world : World) (topic : String) : Call Serving :=
  ⟨.asked, world.shared.gone, world.shared.exists_ topic⟩

/-- One step of a resolution by name. -/
def serve (world : World) (topic : String) (call : Call Serving) :
    World × Turn (Call Serving) (Option Served) :=
  let (shared, turn) := world.shared.serve topic call.phase
  match turn with
  | .goes phase => ({ world with shared }, .goes { call with phase })
  | .answers result =>
    (answer { world with shared }
      (.served topic call.gone call.existed (shared.exists_ topic) result), .answers result)

def create (world : World) (i : Nat) (topic : String) (partitions : Nat)
    (creator : Option Principal) (phase : Creating) :
    World × Turn Creating (Option CatalogEntry) :=
  let (shared, turn) := world.shared.create topic partitions creator phase
  match turn with
  | .goes phase => ({ world with shared }, .goes phase)
  | .answers result =>
    ({ world with shared, lifecycle := world.lifecycle.release i .read }, .answers result)

/-- Answers one topic of a `Metadata` request. -/
def resolved (world : World) (i : Nat) (version : Int) (resolved : ResolvedTopic) : World :=
  (world.answer (.metadata version (world.shared.created.lookup ⟨resolved.name⟩) resolved)).setTask
    i none

def unknownTopic (topic : String) : ResolvedTopic :=
  ⟨topic, 0, ErrorCode.unknownTopicOrPartition, 0⟩

/-- One step of `resolve_topic`. -/
def resolve (world : World) (i : Nat) (topic : String) (version : Int) (allow : Bool) :
    Stage → World
  | .finding call =>
    let (world, turn) := world.serve topic call
    match turn with
    | .goes call => world.setTask i (some (.resolving topic version allow (.finding call)))
    | .answers (some _) =>
      world.setTask i (some (.resolving topic version allow (.counting (world.call topic))))
    | .answers none =>
      if allow then
        { world with lifecycle := world.lifecycle.ask i .read }.setTask i
          (some (.resolving topic version allow (.ensuring .waiting)))
      else world.resolved i version (unknownTopic topic)
  | .ensuring phase =>
    let (world, turn) := world.create i topic 1 none phase
    match turn with
    | .goes phase => world.setTask i (some (.resolving topic version allow (.ensuring phase)))
    | .answers (some _) =>
      world.setTask i (some (.resolving topic version allow (.counting (world.call topic))))
    | .answers none => world.resolved i version (unknownTopic topic)
  | .counting call =>
    let (world, turn) := world.serve topic call
    match turn with
    | .goes call => world.setTask i (some (.resolving topic version allow (.counting call)))
    | .answers result =>
      let partitionCount := (result.map Served.partitions).getD 1
      if version ≥ 10 then
        world.setTask i (some (.resolving topic version allow
          (.identifying partitionCount (world.call topic))))
      else world.resolved i version ⟨topic, 0, ErrorCode.none, partitionCount⟩
  | .identifying partitionCount call =>
    let (world, turn) := world.serve topic call
    match turn with
    | .goes call =>
      world.setTask i (some (.resolving topic version allow (.identifying partitionCount call)))
    | .answers result => world.resolved i version
        ⟨topic, (result.map Served.id).getD 0, ErrorCode.none, partitionCount⟩

/-- One step of a call. -/
def turn (world : World) (i : Nat) : Task → World
  | .serving topic call =>
    let (world, turn) := world.serve topic call
    match turn with
    | .goes call => world.setTask i (some (.serving topic call))
    | .answers _ => world.setTask i none
  | .naming id call =>
    let (shared, turn) := world.shared.nameById id call.phase
    match turn with
    | .goes phase => { world with shared }.setTask i (some (.naming id { call with phase }))
    | .answers result =>
      (answer { world with shared }
        (.named id call.gone call.existed (shared.catalog.lookupId id) result)).setTask i none
  | .creating topic partitions creator phase =>
    let (world, turn) := world.create i topic partitions creator phase
    match turn with
    | .goes phase => world.setTask i (some (.creating topic partitions creator phase))
    | .answers _ => world.setTask i none
  | .deleting name expectedId phase =>
    let (shared, turn) := world.shared.delete name expectedId phase
    match turn with
    | .goes phase => { world with shared }.setTask i (some (.deleting name expectedId phase))
    | .answers _ =>
      { world with shared, lifecycle := world.lifecycle.release i .write }.setTask i none
  | .resolving topic version allow stage => world.resolve i topic version allow stage

end World

def Task.granted : Task → Task
  | .creating topic partitions creator .waiting => .creating topic partitions creator .locked
  | .deleting name expectedId .waiting => .deleting name expectedId .locked
  | .resolving topic version allow (.ensuring .waiting) =>
    .resolving topic version allow (.ensuring .locked)
  | task => task

def Task.waits : Task → Bool
  | .creating _ _ _ .waiting => true
  | .deleting _ _ .waiting => true
  | .resolving _ _ _ (.ensuring .waiting) => true
  | _ => false

def Shared.elsewhere (shared : Shared) : Elsewhere → Shared
  | .create topic partitions keyDomain =>
    match TopicId.new topic with
    | .error _ => shared
    | .ok name => match shared.catalog.createWithKeyDomain name partitions keyDomain with
      | .error _ => shared
      | .ok (catalog, entry) => shared.withCreated catalog entry
  | .createOwned topic partitions creator =>
    match TopicId.new topic with
    | .error _ => shared
    | .ok name => match shared.catalog.createOwned name partitions creator with
      | .error _ => shared
      | .ok (catalog, entry) => shared.withCreated catalog entry
  | .delete name expectedId => { shared with catalog := (shared.catalog.delete name expectedId).1 }

/-- The next state, where the event can happen. -/
def World.step (world : World) : Event → Option World
  | .serve i topic =>
    if (world.tasks i).isSome then none
    else some (world.setTask i (some (.serving topic (world.call topic))))
  | .nameById i id =>
    if (world.tasks i).isSome then none
    else some (world.setTask i (some (.naming id
      ⟨.asked, world.shared.gone, world.shared.catalog.lookupId id⟩)))
  | .create i topic partitions creator =>
    if (world.tasks i).isSome then none
    else some ({ world with lifecycle := world.lifecycle.ask i .read }.setTask i
      (some (.creating topic partitions creator .waiting)))
  | .delete i name expectedId =>
    if (world.tasks i).isSome then none
    else some ({ world with lifecycle := world.lifecycle.ask i .write }.setTask i
      (some (.deleting name expectedId .waiting)))
  | .resolve i topic version allow =>
    if (world.tasks i).isSome then none
    else some (world.setTask i (some (.resolving topic version allow
      (.finding (world.call topic)))))
  | .grant => world.lifecycle.grant.map fun (i, lifecycle) =>
    { world with lifecycle }.setTask i ((world.tasks i).map Task.granted)
  | .advance i => (world.tasks i).bind fun task =>
    if task.waits then none else some (world.turn i task)
  | .elsewhere call => some { world with shared := world.shared.elsewhere call }
  | .tick elapsed =>
    some { world with shared := { world.shared with now := world.shared.now + elapsed } }

end Oqueue.Broker.Topics
