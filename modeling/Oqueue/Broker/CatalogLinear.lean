import Oqueue.Broker.CatalogSpecs

/-!
# The catalog as its callers see it

Creations, deletions, lookups and listings of any nodes run beside each other, each cut where
it waits for the store, and each may die between two requests. A name has one entry for
good. A lookup that begins once the entry is made finds it until a tombstone is there, and
what begins after the tombstone neither finds nor makes it.
-/

namespace Oqueue.Broker

open Asks CatalogStore

structure NewTopic (used : TopicId → Prop) where
  name : TopicId
  partitions : Nat
  isUsed : used name
  typed : name.Typed
  few : partitions < 2 ^ 32
  deriving DecidableEq

inductive CatalogOp (used : TopicId → Prop) where
  | create (topic : NewTopic used)
  | createWithKeyDomain (topic : NewTopic used) (keyDomain : KeyDomain)
  | createOwned (topic : NewTopic used)
    (creator : { creator : Principal // creator.isEmpty = false })
  | delete (name : TopicId) (expectedId : Option (BitVec 128))
  | lookup (name : TopicId)
  | lookupId (id : BitVec 128)
  | list (pageFuel : Nat) (after : Option TopicId) (limit : Nat)
  | listOwned (creator : Principal) (pageFuel : Nat) (after : Option TopicId) (limit : Nat)
  deriving DecidableEq

inductive CatalogAnswer where
  /-- The entry there is, and whether the call made it, where it says so. -/
  | made (entry : CatalogEntry) (created : Bool)
  | gone (outcome : TopicDeleteOutcome)
  | found (entry : Option CatalogEntry)
  | names (names : Option (List TopicId))
  deriving DecidableEq

namespace CatalogOp

variable {used : TopicId → Prop}

def program (root : List UInt8) : CatalogOp used → CatalogCall CatalogAnswer
  | .create topic => (CatalogAnswer.made · false) <$> CatalogCall.insert topic.name topic.partitions
  | .createWithKeyDomain topic keyDomain => (CatalogAnswer.made · false) <$>
    CatalogCall.insertWithKeyDomain topic.name topic.partitions keyDomain
  | .createOwned topic creator => (fun outcome => CatalogAnswer.made outcome.1 outcome.2) <$>
    CatalogCall.insertOwned topic.name topic.partitions creator.val
  | .delete name expectedId => CatalogAnswer.gone <$> CatalogCall.deleteTopic name expectedId
  | .lookup name => CatalogAnswer.found <$> CatalogCall.find name
  | .lookupId id => CatalogAnswer.found <$> CatalogCall.findId id
  | .list pageFuel after limit => CatalogAnswer.names <$> CatalogCall.page root pageFuel after limit
  | .listOwned creator pageFuel after limit =>
    CatalogAnswer.names <$> CatalogCall.ownedPage root creator pageFuel after limit

def creates : CatalogOp used → Option TopicId
  | .create topic | .createWithKeyDomain topic _ | .createOwned topic _ => some topic.name
  | _ => none

def LooksFor (name : TopicId) (op : CatalogOp used) : Prop :=
  op = .lookup name ∨ op = .lookupId (topicUuid name)

def Deletes (op : CatalogOp used) (name : TopicId) : Prop := ∃ expected, op = .delete name expected

end CatalogOp

/-- What a lookup by name is answered, begun in one state and answered by another. -/
def LookupTold (used : TopicId → Prop) (calm : Prop) (name : TopicId) (s t : CatalogStore) :
    Except Error CatalogAnswer → Prop
  | .ok (.found none) => CatalogCall.Between used s t (CatalogCall.Missing name)
  | .ok (.found (some entry)) => entry.name = name ∧ t.Records name entry ∧ ¬ s.Tombed name
  | .ok _ => False
  | .error _ => calm → CatalogCall.Collides used name

def LookupIdTold (used : TopicId → Prop) (calm : Prop) (id : BitVec 128) (s t : CatalogStore) :
    Except Error CatalogAnswer → Prop
  | .ok (.found none) => (CatalogCall.Between used s t fun m => m.get (.id id) = none) ∨
    ∃ name, used name ∧ topicUuid name = id ∧
      CatalogCall.Between used s t (CatalogCall.Missing name)
  | .ok (.found (some entry)) => entry.id = id ∧ t.Records entry.name entry ∧ ¬ s.Tombed entry.name
  | .ok _ => False
  | .error _ => calm → ∃ name, used name ∧ topicUuid name = id ∧ CatalogCall.Collides used name

def ListingTold (s t : CatalogStore) : Except Error CatalogAnswer → Prop
  | .ok (.names found) => ∀ names, found = some names → ∀ name ∈ names, CatalogCall.Seen s t name
  | .ok _ => False
  | .error _ => True

def CreationTold (who : Nat) (name : TopicId) (s t : CatalogStore) :
    Except Error CatalogAnswer → Prop
  | .ok (.made entry created) => CatalogCall.Settles name s t entry ∧
    (created = true → t.founder.lookup name = some who)
  | .ok _ => False
  | .error _ => True

def DeletionTold (who : Nat) (name : TopicId) (t : CatalogStore) : Except Error CatalogAnswer → Prop
  | .ok (.gone outcome) => ∀ entry, outcome = .deleted entry →
    t.burier.lookup name = some who ∧ t.Tombed name ∧ t.Records name entry
  | .ok _ => False
  | .error _ => True

def Told (used : TopicId → Prop) (calm : Prop) (op : CatalogOp used) (who : Nat)
    (s t : CatalogStore) (result : Except Error CatalogAnswer) : Prop :=
  match op with
  | .create topic | .createWithKeyDomain topic _ | .createOwned topic _ =>
    CreationTold who topic.name s t result
  | .delete name _ => DeletionTold who name t result
  | .lookup name => LookupTold used calm name s t result
  | .lookupId id => LookupIdTold used calm id s t result
  | .list .. | .listOwned .. => ListingTold s t result

section
variable {root : List UInt8} {used : TopicId → Prop} {calm : Prop} {who : Nat} {s : CatalogStore}

/-- Where it is calm, the store fails no request. -/
def Fine (calm : Prop) (_ : CatalogStore) (_ : CatalogRequest) (weather : Weather) : Prop :=
  calm → ∃ picked, weather = .fine picked

theorem not_calm_of_faulty (faulty : CatalogCall.Faulty (Fine calm)) : ¬ calm := by
  obtain ⟨_, _, _, _, _, fine⟩ := faulty
  intro calm
  obtain ⟨_, served⟩ := fine calm
  cases served

theorem told_of_ends {α : Type} {call : CatalogCall α} {answer : α → CatalogAnswer}
    {ok : CatalogStore → α → Prop} (error : CatalogStore → Error → Prop)
    {told : CatalogStore → Except Error CatalogAnswer → Prop} (kept : s.Kept used)
    (ends : Ends (CatalogCall.shared root used (Fine calm)) who ok error call s)
    (oks : ∀ t a, ok t a → told t (.ok (answer a)))
    (errors : ∀ t e, error t e → told t (.error e)) :
    (answer <$> call).run.Meets (CatalogCall.shared root used (Fine calm)) who told s := by
  have said : Ends _ who (fun t a => told t (.ok a)) error (answer <$> call) s :=
    Ends.map kept ends oks
  refine Meets.mono said ?_
  rintro t (e | a) _ _ this
  · exact errors t e this
  · exact this

theorem made_of_insert (topic : NewTopic used) (keyDomain : KeyDomain) (kept : s.Kept used) :
    ((CatalogAnswer.made · false) <$> CatalogCall.insertWithKeyDomain topic.name topic.partitions
      keyDomain).run.Meets (CatalogCall.shared root used (Fine calm)) who
      (CreationTold who topic.name s) s := by
  refine told_of_ends (fun _ _ => True) kept (CatalogCall.insertWithKeyDomain_ends
    (fun _ _ => trivial) keyDomain topic.isUsed topic.typed topic.few kept) (fun t entry told => ?_)
    fun _ _ _ => trivial
  exact ⟨told.1, by rintro ⟨⟩⟩

theorem program_told (typed : ∀ name, used name → name.Typed) (op : CatalogOp used)
    (kept : s.Kept used) :
    (op.program root).run.Meets (CatalogCall.shared root used (Fine calm)) who
      (Told used calm op who s) s := by
  cases op with
  | create topic => exact made_of_insert topic .defaultDomain kept
  | createWithKeyDomain topic keyDomain => exact made_of_insert topic keyDomain kept
  | createOwned topic creator =>
    refine told_of_ends (fun _ _ => True) kept (CatalogCall.insertOwned_ends
      (fun _ _ => trivial) topic.isUsed topic.typed topic.few creator.property kept)
      (fun t outcome told => ?_) fun _ _ _ => trivial
    exact ⟨told.1, fun created => (told.2 created).1⟩
  | delete name expectedId =>
    refine told_of_ends (fun _ _ => True) kept (CatalogCall.deleteTopic_ends
      (fun _ _ => trivial) expectedId kept) (fun t outcome told => ?_) fun _ _ _ => trivial
    exact told
  | lookup name =>
    refine told_of_ends (fun _ _ => calm → CatalogCall.Collides used name) kept
      (CatalogCall.find_ends (fun faulty _ _ calm => absurd calm (not_calm_of_faulty faulty)) kept
      fun collides _ _ _ => collides) (fun t found told => ?_) fun _ _ error => error
    cases found <;> exact told
  | lookupId id =>
    refine told_of_ends (fun _ _ => calm →
      ∃ name, used name ∧ topicUuid name = id ∧ CatalogCall.Collides used name) kept
      (CatalogCall.findId_ends (fun faulty _ _ calm => absurd calm (not_calm_of_faulty faulty))
        typed kept fun name isUsed same collides _ _ _ => ⟨name, isUsed, same, collides⟩)
      (fun t found told => ?_) fun _ _ error => error
    cases found <;> exact told
  | list pageFuel after limit =>
    refine told_of_ends (fun _ _ => True) kept (CatalogCall.page_ends
      (fun _ _ => trivial) pageFuel after limit kept) (fun t names told => ?_)
      fun _ _ _ => trivial
    exact told
  | listOwned creator pageFuel after limit =>
    refine told_of_ends (fun _ _ => True) kept (CatalogCall.ownedPage_ends
      (fun _ _ => trivial) creator pageFuel after limit kept) (fun t names told => ?_)
      fun _ _ _ => trivial
    intro found listed name among
    obtain ⟨⟨entry, records, -⟩, live⟩ := told found listed name among
    exact ⟨⟨entry, records⟩, live⟩

end

def Buries (names : TopicId → Prop) : CatalogRequest → Prop
  | .putAbsent (.tombstone name) _ => names name
  | _ => True

namespace CatalogCall

variable {names : TopicId → Prop}

theorem deleteAll_only (left : Nat) (batch : List CatalogKey) :
    (deleteAll left batch).run.Only (Buries names) := by
  induction left generalizing batch with
  | zero => trivial
  | succ left ih => exact Only.bindExcept (Only.request trivial) fun _ => ih _

theorem tombstoneEntry_only (name : TopicId) :
    (tombstoneEntry name).run.Only (Buries names) := by
  refine Only.bindExcept (Only.request trivial) fun body => ?_
  cases body with
  | none => trivial
  | some body =>
    refine Only.bindExcept Only.ofExcept fun entry => ?_
    split <;> trivial

theorem tombstoneId_only (name : TopicId) : (tombstoneId name).run.Only (Buries names) :=
  Only.bindExcept (tombstoneEntry_only name) fun _ => trivial

theorem findEntry_only (name : TopicId) : (findEntry name).run.Only (Buries names) := by
  refine Only.bindExcept (Only.request trivial) fun body => ?_
  cases body with
  | none => trivial
  | some body =>
    refine Only.bindExcept Only.ofExcept fun entry => ?_
    split <;> trivial

theorem find_only (name : TopicId) : (find name).run.Only (Buries names) := by
  refine Only.bindExcept (tombstoneId_only name) fun hidden => ?_
  split
  · trivial
  · refine Only.bindExcept (findEntry_only name) fun found => ?_
    cases found with
    | none => trivial
    | some entry =>
      refine Only.bindExcept (Only.request trivial) fun bytes => ?_
      cases bytes with
      | none => trivial
      | some bytes =>
        dsimp only
        split
        · trivial
        · refine Only.bindExcept (tombstoneId_only name) fun hidden => ?_
          split <;> trivial

theorem findId_only (id : BitVec 128) : (findId id).run.Only (Buries names) := by
  refine Only.bindExcept (Only.request trivial) fun bytes => ?_
  cases bytes with
  | none => trivial
  | some bytes =>
    dsimp only
    split
    · trivial
    · exact Only.bindExcept (find_only _) fun _ => trivial

theorem rejectIfTombstoned_only (entry : CatalogEntry) :
    (rejectIfTombstoned entry).run.Only (Buries names) := by
  refine Only.bindExcept (tombstoneId_only _) fun hidden => ?_
  split
  · exact Only.bindExcept (deleteAll_only _ _) fun _ => trivial
  · trivial

theorem lookAgain_only (name : TopicId) (left : Nat) :
    (lookAgain name left).run.Only (Buries names) := by
  induction left with
  | zero => trivial
  | succ left ih =>
    refine Only.bindExcept (tombstoneId_only name) fun hidden => ?_
    split
    · trivial
    · refine Only.bindExcept (findEntry_only name) fun found => ?_
      cases found with
      | none => exact ih
      | some entry =>
        refine Only.bindExcept (Only.request trivial) fun _ => ?_
        refine Only.bindExcept (find_only name) fun found => ?_
        split
        · trivial
        · exact ih

theorem findAfterRace_only (name : TopicId) : (findAfterRace name).run.Only (Buries names) := by
  refine Only.bindExcept (tombstoneId_only name) fun hidden => ?_
  split
  · trivial
  · exact lookAgain_only name _

theorem insertWithKeyDomain_only (name : TopicId) (partitions : Nat) (keyDomain : KeyDomain) :
    (insertWithKeyDomain name partitions keyDomain).run.Only (Buries names) := by
  refine Only.bindExcept (tombstoneId_only name) fun hidden => ?_
  split
  · trivial
  · refine Only.bindExcept Only.ofExcept fun body => ?_
    refine Only.bindExcept (Only.request trivial) fun won => ?_
    split
    · refine Only.bindExcept (Only.request trivial) fun _ => ?_
      exact Only.bindExcept (rejectIfTombstoned_only _) fun _ => trivial
    · exact findAfterRace_only name

theorem insertOwned_only (name : TopicId) (partitions : Nat) (creator : Principal) :
    (insertOwned name partitions creator).run.Only (Buries names) := by
  refine Only.bindExcept (tombstoneId_only name) fun hidden => ?_
  split
  · trivial
  · refine Only.bindExcept Only.ofExcept fun body => ?_
    refine Only.bindExcept (Only.request trivial) fun _ => ?_
    refine Only.bindExcept (Only.request trivial) fun won => ?_
    split
    · refine Only.bindExcept (Only.request trivial) fun _ => ?_
      exact Only.bindExcept (rejectIfTombstoned_only _) fun _ => trivial
    · exact Only.bindExcept (findAfterRace_only name) fun _ => trivial

theorem deleteBuried_only (tombstone : CatalogEntry) (expectedId : Option (BitVec 128)) :
    (deleteBuried tombstone expectedId).run.Only (Buries names) := by
  unfold deleteBuried
  split
  · trivial
  · exact Only.bindExcept (deleteAll_only _ _) fun _ => trivial

theorem deleteTopic_only {name : TopicId} (buries : names name)
    (expectedId : Option (BitVec 128)) :
    (deleteTopic name expectedId).run.Only (Buries names) := by
  refine Only.bindExcept (tombstoneEntry_only name) fun found => ?_
  cases found with
  | some tombstone => exact deleteBuried_only _ _
  | none =>
    refine Only.bindExcept (findEntry_only name) fun found => ?_
    cases found with
    | none => trivial
    | some entry =>
      dsimp only
      split
      · trivial
      · refine Only.bindExcept Only.ofExcept fun body => ?_
        refine Only.bindExcept (Only.request buries) fun won => ?_
        split
        · exact Only.bindExcept (deleteAll_only _ _) fun _ => trivial
        · refine Only.bindExcept (tombstoneEntry_only name) fun found => ?_
          cases found with
          | none => trivial
          | some tombstone => exact deleteBuried_only _ _

theorem collect_only {see : List UInt8 → CatalogCall (Option TopicId)}
    (sees : ∀ key, (see key).run.Only (Buries names)) (limit : Nat) (keys : List (List UInt8))
    (found : List TopicId) : (collect see limit keys found).run.Only (Buries names) := by
  induction keys generalizing found with
  | nil => trivial
  | cons key keys ih =>
    refine Only.bindExcept (sees key) fun seen => ?_
    cases seen with
    | none => exact ih found
    | some name =>
      dsimp only
      split
      · trivial
      · exact ih _

theorem walk_only {see : List UInt8 → CatalogCall (Option TopicId)}
    (sees : ∀ key, (see key).run.Only (Buries names)) (stem : List UInt8) (stopsShort : Bool)
    (limit fuel : Nat) (cursor : Option (List UInt8)) (found : List TopicId) :
    (walk stem see stopsShort limit fuel cursor found).run.Only (Buries names) := by
  induction fuel generalizing cursor found with
  | zero => trivial
  | succ fuel ih =>
    unfold walk
    split
    · refine Only.bindExcept (Only.request trivial) fun keys => ?_
      split
      · trivial
      · refine Only.bindExcept (collect_only sees limit keys found) fun more => ?_
        split
        · trivial
        · split
          · trivial
          · exact ih _ _
    · trivial

theorem seeTopic_only (stem key : List UInt8) : (seeTopic stem key).run.Only (Buries names) := by
  unfold seeTopic
  split
  · trivial
  · exact Only.bindExcept (find_only _) fun _ => trivial

theorem seeOwned_only (creator : Principal) (stem key : List UInt8) :
    (seeOwned creator stem key).run.Only (Buries names) := by
  unfold seeOwned
  split
  · trivial
  · split
    · trivial
    · exact Only.bindExcept (find_only _) fun _ => trivial

end CatalogCall

theorem program_buries {used : TopicId → Prop} (root : List UInt8) (op : CatalogOp used) :
    (op.program root).run.Only (Buries op.Deletes) := by
  cases op with
  | create topic => exact Only.mapExcept (CatalogCall.insertWithKeyDomain_only _ _ _)
  | createWithKeyDomain topic keyDomain =>
    exact Only.mapExcept (CatalogCall.insertWithKeyDomain_only _ _ _)
  | createOwned topic creator => exact Only.mapExcept (CatalogCall.insertOwned_only _ _ _)
  | delete name expectedId =>
    exact Only.mapExcept (CatalogCall.deleteTopic_only ⟨expectedId, rfl⟩ expectedId)
  | lookup name => exact Only.mapExcept (CatalogCall.find_only name)
  | lookupId id => exact Only.mapExcept (CatalogCall.findId_only id)
  | list pageFuel after limit =>
    exact Only.mapExcept (CatalogCall.walk_only (CatalogCall.seeTopic_only _) _ _ _ _ _ _)
  | listOwned creator pageFuel after limit =>
    exact Only.mapExcept (CatalogCall.walk_only (CatalogCall.seeOwned_only creator _) _ _ _ _ _ _)

abbrev CatalogPool (used : TopicId → Prop) :=
  Pool CatalogStore (CatalogOp used) CatalogRequest CatalogRequest.Answer
    (Except Error CatalogAnswer)

abbrev CatalogAction (used : TopicId → Prop) := Pool.Action (CatalogOp used) Weather

namespace CatalogPool

variable {used : TopicId → Prop}

def start : CatalogPool used := { state := {} }

def step (root : List UInt8) (pool : CatalogPool used) (action : CatalogAction used) :
    Option (CatalogPool used) :=
  Pool.step (fun op => (op.program root).run) (fun who s => CatalogStore.serve root who s) pool
    action

/-- The store fails no request. -/
def Calm (actions : List (CatalogAction used)) : Prop :=
  ∀ action ∈ actions, ∀ call weather, action = .serve call weather →
    ∃ picked, weather = .fine picked

/-- A call that makes topics of the name has returned this entry. -/
def Creates (pool : CatalogPool used) (i : Nat) (name : TopicId) (entry : CatalogEntry)
    (created : Bool) : Prop :=
  ∃ op, op.creates = some name ∧ pool.Returned i op (.ok (.made entry created))

def Deleted (pool : CatalogPool used) (i : Nat) (name : TopicId) (entry : CatalogEntry) : Prop :=
  ∃ expected, pool.Returned i (.delete name expected) (.ok (.gone (.deleted entry)))

/-- A call has returned the topic, whatever it asked for. -/
def Shows (pool : CatalogPool used) (i : Nat) (name : TopicId) : Prop :=
  (∃ entry created, pool.Creates i name entry created) ∨
  (∃ op entry, pool.Returned i op (.ok (.found (some entry))) ∧ entry.name = name) ∨
  ∃ op names, pool.Returned i op (.ok (.names (some names))) ∧ name ∈ names

/-- No deletion of the name has begun. -/
def Undisturbed (pool : CatalogPool used) (name : TopicId) : Prop :=
  ∀ call ∈ pool.calls, ¬ call.op.Deletes name

end CatalogPool

section
variable {used : TopicId → Prop}

theorem live_of_undisturbed {root : List UInt8} {actions : List (CatalogAction used)}
    {last : CatalogPool used} {name : TopicId}
    (ran : Steps.run (CatalogPool.step root) .start actions = some last)
    (undisturbed : last.Undisturbed name) : ¬ last.state.Tombed name := by
  have buried := Pool.run_begun
    (P := fun (op : CatalogOp used) request => Buries op.Deletes request)
    (R := fun ops (s : CatalogStore) => ∀ name, s.Tombed name → ∃ op ∈ ops, op.Deletes name)
    (program_buries root) ?_ ?_ rfl (by rintro name ⟨⟩) ran
  · intro dead
    obtain ⟨_, among, deletes⟩ := buried name dead
    obtain ⟨call, held, rfl⟩ := List.mem_map.mp among
    exact undisturbed call held deletes
  · intro ops op s holds name dead
    obtain ⟨op, among, deletes⟩ := holds name dead
    exact ⟨op, List.mem_append_left _ among, deletes⟩
  · intro ops op i s request weather among asked holds name dead
    rcases tombed_serve dead with already | ⟨body, rfl⟩
    · exact holds name already
    · exact ⟨op, among, asked⟩

theorem not_missing {s m : CatalogStore} {name : TopicId} {entry : CatalogEntry}
    (apart : ∀ a b, used a → used b → topicUuid a = topicUuid b → a = b) (kept : m.Kept used)
    (records : s.Records name entry) (published : Published s name) (later : Later s m)
    (live : ¬ m.Tombed name) :
    ¬ CatalogCall.Missing name m ∧ (m.get (.id (topicUuid name))).isSome := by
  obtain ⟨body, recorded, -⟩ := records.later later
  have there : (m.get (.id (topicUuid name))).isSome := by
    refine (published.later later).resolve_left ?_
    rintro ⟨other, same, dead⟩
    obtain ⟨tombstone, held⟩ := Option.isSome_iff_exists.mp dead
    obtain rfl := apart other name (kept.entries other tombstone (.inl held)).1
      (kept.of_recorded recorded).1 same
    exact live dead
  refine ⟨?_, there⟩
  rintro (dead | absent | absent)
  · exact live dead
  · cases absent.symm.trans (topic_live live recorded)
  · rw [absent] at there
    cases there

variable {root : List UInt8} {before after : List (CatalogAction used)}
  {mid last : CatalogPool used}

/-- What the calls of a run are told, those that begin after a moment of it among them. -/
theorem catalog_run (typed : ∀ name, used name → name.Typed)
    (ran : Steps.run (CatalogPool.step root) .start before = some mid)
    (ran' : Steps.run (CatalogPool.step root) mid after = some last) :
    mid.state.Kept used ∧ last.state.Kept used ∧ Later mid.state last.state ∧
      (∀ i op result, mid.Returned i op result →
        ∃ s, Told used (CatalogPool.Calm (before ++ after)) op i s mid.state result) ∧
      ∀ i op result, last.Returned i op result → ∃ s, (mid.calls.length ≤ i → Later mid.state s) ∧
        Told used (CatalogPool.Calm (before ++ after)) op i s last.state result := by
  have allowed {pool : CatalogPool used} {actions : List (CatalogAction used)}
      (part : ∀ action ∈ actions, action ∈ before ++ after) :
      Pool.AllAllowed
        (CatalogCall.shared root used (Fine (CatalogPool.Calm (before ++ after))))
        (fun op => (CatalogOp.program root op).run) pool actions := by
    refine Pool.allAllowed_of_forall fun action among pool => ?_
    cases action with
    | begin_ | crash => trivial
    | serve call weather =>
      intro _ _ _ _ calm
      exact calm _ (part _ among) call weather rfl
  have kept : (CatalogPool.start : CatalogPool used).state.Kept used := start_kept used
  exact Pool.runs_keep (Told used (CatalogPool.Calm (before ++ after)))
    (fun op i s kept => program_told typed op kept) kept rfl
    (allowed fun _ among => List.mem_append_left _ among)
    (allowed fun _ among => List.mem_append_right _ among) ran ran'

theorem made_of_creates {calm : Prop} {op : CatalogOp used} {i : Nat} {s t : CatalogStore}
    {name : TopicId} {entry : CatalogEntry} {created : Bool} (creates : op.creates = some name)
    (told : Told used calm op i s t (.ok (.made entry created))) :
    CatalogCall.Settles name s t entry ∧ (created = true → t.founder.lookup name = some i) := by
  cases op with
  | create | createWithKeyDomain | createOwned =>
    cases creates
    exact told
  | delete | lookup | lookupId | list | listOwned => cases creates

theorem live_of_found {calm : Prop} {op : CatalogOp used} {i : Nat} {s t : CatalogStore}
    {entry : CatalogEntry} (told : Told used calm op i s t (.ok (.found (some entry)))) :
    ¬ s.Tombed entry.name := by
  cases op with
  | lookup name =>
    obtain ⟨rfl, -, live⟩ := told
    exact live
  | lookupId id => exact told.2.2
  | create | createWithKeyDomain | createOwned | delete | list | listOwned => cases told

theorem live_of_listed {calm : Prop} {op : CatalogOp used} {i : Nat} {s t : CatalogStore}
    {names : List TopicId} {name : TopicId} (among : name ∈ names)
    (told : Told used calm op i s t (.ok (.names (some names)))) : ¬ s.Tombed name := by
  cases op with
  | list | listOwned => exact (told names rfl name among).2
  | create | createWithKeyDomain | createOwned | delete | lookup | lookupId => cases told

/-- A lookup that begins once the topic is made, and is answered before a tombstone is there. -/
theorem found_of_told {calm : Prop} {op : CatalogOp used} {i : Nat} {r s t : CatalogStore}
    {name : TopicId} {entry : CatalogEntry} {result : Except Error CatalogAnswer}
    (apart : ∀ a b, used a → used b → topicUuid a = topicUuid b → a = b) (kept : t.Kept used)
    (records : r.Records name entry) (published : Published r name) (later : Later r s)
    (further : Later r t) (live : ¬ t.Tombed name) (looks : op.LooksFor name)
    (told : Told used calm op i s t result) :
    result = .ok (.found (some entry)) ∨ (∃ error, result = .error error) ∧ ¬ calm := by
  have usedOf {other found} (records : t.Records other found) : used other := by
    obtain ⟨body, recorded, -⟩ := records
    exact (kept.of_recorded recorded).1
  have isUsed : used name := usedOf (records.later further)
  have alone {other} (isUsed' : used other) (same : topicUuid other = topicUuid name) :
      other = name := apart other name isUsed' isUsed same
  have apart' : ¬ CatalogCall.Collides used name := by
    rintro ⟨other, isUsed', ne, same⟩
    exact ne (alone isUsed' same)
  have there {m} (first : Later s m) (kept : m.Kept used) (second : Later m t) :=
    not_missing apart kept records published (later.trans first) fun dead =>
      live (second.tombed name dead)
  have never : ¬ CatalogCall.Between used s t (CatalogCall.Missing name) := by
    rintro ⟨m, first, kept, missing, second⟩
    exact (there first kept second).1 missing
  rcases looks with rfl | rfl
  · rcases result with error | (_ | _ | (_ | found) | _)
    · exact .inr ⟨⟨error, rfl⟩, fun calm => apart' (told calm)⟩
    · cases told
    · cases told
    · exact absurd told never
    · exact .inl (by rw [told.2.1.unique (records.later further)])
    · cases told
  · rcases result with error | (_ | _ | (_ | found) | _)
    · refine .inr ⟨⟨error, rfl⟩, fun calm => ?_⟩
      obtain ⟨other, isUsed', same, collides⟩ := told calm
      exact apart' (alone isUsed' same ▸ collides)
    · cases told
    · cases told
    · rcases told with ⟨m, first, kept, absent, second⟩ | ⟨other, isUsed', same, missing⟩
      · have present := (there first kept second).2
        rw [absent] at present
        cases present
      · exact absurd (alone isUsed' same ▸ missing) never
    · obtain ⟨same, records', -⟩ := told
      have named := alone (usedOf records') same
      rw [named] at records'
      exact .inl (by rw [records'.unique (records.later further)])
    · cases told

/-- However the calls of any nodes interleave and die: creations of one name return one entry,
and one of them at most made it; a lookup of the name that begins after a creation returned, and
is answered before a deletion of the name begins, finds that entry, if the store answers; once
a tombstone hides the name, no call that begins later shows it; and one deletion at most
deletes it, and what it deletes is that entry. -/
theorem catalog_linear (typed : ∀ name, used name → name.Typed)
    (apart : ∀ a b, used a → used b → topicUuid a = topicUuid b → a = b)
    (ran : Steps.run (CatalogPool.step root) .start before = some mid)
    (ran' : Steps.run (CatalogPool.step root) mid after = some last) :
    (∀ i j name entry entry' created created', mid.Creates i name entry created →
      last.Creates j name entry' created' →
      entry' = entry ∧ (created = true → created' = true → i = j)) ∧
    (∀ i j name entry created op result, mid.Creates i name entry created →
      mid.calls.length ≤ j → op.LooksFor name → last.Undisturbed name → last.Returned j op result →
      result = .ok (.found (some entry)) ∨
        (∃ error, result = .error error) ∧ ¬ CatalogPool.Calm (before ++ after)) ∧
    (∀ i name, mid.state.Tombed name → mid.calls.length ≤ i → ¬ last.Shows i name) ∧
    ∀ i name entry, mid.Deleted i name entry → mid.state.Tombed name ∧
      (∀ j entry', last.Deleted j name entry' → j = i) ∧
      ∀ j entry' created, last.Creates j name entry' created → entry' = entry := by
  obtain ⟨kept, kept', later, told, told'⟩ := catalog_run typed ran ran'
  have made {i name entry created} (creates : mid.Creates i name entry created) :
      ∃ s, CatalogCall.Settles name s mid.state entry ∧
        (created = true → mid.state.founder.lookup name = some i) := by
    obtain ⟨op, creates, returned⟩ := creates
    obtain ⟨s, told⟩ := told i op _ returned
    exact ⟨s, made_of_creates creates told⟩
  have made' {i name entry created} (creates : last.Creates i name entry created) :
      ∃ s, CatalogCall.Settles name s last.state entry ∧
        (created = true → last.state.founder.lookup name = some i) := by
    obtain ⟨op, creates, returned⟩ := creates
    obtain ⟨s, -, told⟩ := told' i op _ returned
    exact ⟨s, made_of_creates creates told⟩
  refine ⟨?_, ?_, ?_, ?_⟩
  · intro i j name entry entry' created created' creates creates'
    obtain ⟨s, settles, founds⟩ := made creates
    obtain ⟨s', settles', founds'⟩ := made' creates'
    refine ⟨settles'.2.1.unique (settles.2.1.later later), fun first second => ?_⟩
    exact Option.some.inj ((later.founder name i (founds first)).symm.trans (founds' second))
  · intro i j name entry created op result creates new looks undisturbed returned
    obtain ⟨s, ⟨-, records, published, -⟩, -⟩ := made creates
    obtain ⟨s', begun, told⟩ := told' j op result returned
    have whole : Steps.run (CatalogPool.step root) .start (before ++ after) = some last := by
      rw [Steps.run_append, ran]
      exact ran'
    exact found_of_told apart kept' records published (begun new) later
      (live_of_undisturbed whole undisturbed) looks told
  · intro i name dead new shows_
    rcases shows_ with ⟨entry, created, op, creates, returned⟩ | ⟨op, entry, returned, rfl⟩ |
      ⟨op, names, returned, among⟩
    · obtain ⟨s, begun, told⟩ := told' i op _ returned
      exact (made_of_creates creates told).1.2.2.2 ((begun new).tombed name dead)
    · obtain ⟨s, begun, told⟩ := told' i op _ returned
      exact live_of_found told ((begun new).tombed _ dead)
    · obtain ⟨s, begun, told⟩ := told' i op _ returned
      exact live_of_listed among told ((begun new).tombed name dead)
  · intro i name entry deleted
    obtain ⟨expected, returned⟩ := deleted
    obtain ⟨s, gone⟩ := told i _ _ returned
    obtain ⟨burier, tombed, records⟩ := gone entry rfl
    refine ⟨tombed, ?_, ?_⟩
    · rintro j entry' ⟨expected', returned'⟩
      obtain ⟨s', -, gone'⟩ := told' j _ _ returned'
      have burier' := (gone' entry' rfl).1
      exact Option.some.inj (burier'.symm.trans (later.burier name i burier))
    · intro j entry' created creates
      obtain ⟨s', settles, -⟩ := made' creates
      exact settles.2.1.unique (records.later later)

end

def IsInvoices (name : TopicId) : Prop := name = ⟨"invoices"⟩

instance : DecidablePred IsInvoices := fun name => inferInstanceAs (Decidable (name = _))

def invoices (partitions : Nat) (few : partitions < 2 ^ 32) : NewTopic IsInvoices where
  name := ⟨"invoices"⟩
  partitions
  isUsed := rfl
  typed := by unfold TopicId.Typed; decide
  few

def bob : { creator : Principal // creator.isEmpty = false } := ⟨"bob", by decide⟩

/-- Two calls make the topic at once, and one of them dies before the entry has its id. -/
def racedCreation : List (CatalogAction IsInvoices) :=
  .begin_ (.create (invoices 1 (by decide))) :: List.replicate 2 (.serve 0 (.fine 0)) ++
    .begin_ (.createOwned (invoices 3 (by decide)) bob) :: .crash 0 ::
      List.replicate 11 (.serve 1 (.fine 0))

def lookedUpThenDeleted : List (CatalogAction IsInvoices) :=
  .begin_ (.lookup ⟨"invoices"⟩) :: List.replicate 4 (.serve 2 (.fine 0)) ++
    .begin_ (.delete ⟨"invoices"⟩ none) :: List.replicate 6 (.serve 3 (.fine 0))

def invoicesEntry : CatalogEntry := { name := ⟨"invoices"⟩, partitions := 1 }

theorem lookedUpThenDeleted_outcomes : (Steps.run (CatalogPool.step []) .start
    (racedCreation ++ lookedUpThenDeleted)).map Pool.outcomes =
    some [(.create (invoices 1 (by decide)), none),
      (.createOwned (invoices 3 (by decide)) bob, some (.ok (.made invoicesEntry false))),
      (.lookup ⟨"invoices"⟩, some (.ok (.found (some invoicesEntry)))),
      (.delete ⟨"invoices"⟩ none, some (.ok (.gone (.deleted invoicesEntry))))] := by
  decide +kernel

/-- The second creation finishes what the first left, and the deletion deletes its entry; what
is asked afterwards does not bring the topic back. -/
theorem catalog_linear_invoices : ∃ mid last : CatalogPool IsInvoices,
    Steps.run (CatalogPool.step []) .start (racedCreation ++ lookedUpThenDeleted) = some mid ∧
    Steps.run (CatalogPool.step []) mid [.begin_ (.create (invoices 2 (by decide)))] = some last ∧
    (∀ i, 4 ≤ i → ¬ last.Shows i ⟨"invoices"⟩) ∧
    ∀ j entry created, last.Creates j ⟨"invoices"⟩ entry created → entry = invoicesEntry := by
  obtain ⟨mid, ran, outcomes⟩ := Option.map_eq_some_iff.mp lookedUpThenDeleted_outcomes
  have deleted : CatalogPool.Deleted mid 3 ⟨"invoices"⟩ invoicesEntry :=
    ⟨none, Pool.returned_of_outcomes (outcomes ▸ rfl)⟩
  have four : mid.calls.length = 4 := by
    have lengths := congrArg List.length outcomes
    rwa [Pool.outcomes, List.length_map] at lengths
  obtain ⟨last, again⟩ : ∃ last : CatalogPool IsInvoices, Steps.run (CatalogPool.step []) mid
      [.begin_ (.create (invoices 2 (by decide)))] = some last := ⟨_, rfl⟩
  have typed : ∀ name, IsInvoices name → name.Typed := by
    rintro _ rfl
    unfold TopicId.Typed
    decide
  have apart : ∀ a b, IsInvoices a → IsInvoices b → topicUuid a = topicUuid b → a = b := by
    rintro _ _ rfl rfl -
    rfl
  obtain ⟨-, -, hidden, gone⟩ := catalog_linear typed apart ran again
  obtain ⟨tombed, -, same⟩ := gone 3 _ _ deleted
  exact ⟨mid, last, ran, again, fun i new => hidden i _ tombed (four ▸ new), same⟩

end Oqueue.Broker
