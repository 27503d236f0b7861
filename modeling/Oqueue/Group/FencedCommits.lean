import Oqueue.Group.Committing
import Oqueue.Group.Writers

/-!
# At which generation an offset commit lands

The fence is read once, so a commit lands in the generation its request names only if no
transition of its group is applied before its last record is appended.
-/

namespace Oqueue.OffsetCommit

open GroupLog (Action)

def Current (record : Option GroupRecord) (generation : Int) : Prop :=
  ∃ held, record = some held ∧ held.state = .stable ∧ held.generation = generation

/-- Whether a request's topic still has an offset to append. -/
def TopicCommit.Owes (topic : TopicCommit) (log : GroupLog.World) : Prop :=
  topic.partitions ≠ [] ∨
    ∃ partition id, topic.inFlight = some (partition, id) ∧ log.Unlanded id

/-- Whether a request still has an offset to append. -/
def Committing.Owes (commit : Committing) (authz : Broker.AuthzContext) (log : GroupLog.World) :
    Prop :=
  (∃ topic, commit.topic = some topic ∧ topic.Owes log) ∨
    ∃ topic ∈ commit.topics, Broker.topicAuthorized topic.name authz = true ∧
      topic.name.isEmpty = false ∧ topic.partitions ≠ []

/-- No transition of a group is applied while a request that passed its fence still has an
offset to append. -/
def World.Clear (world : World) : Event → Prop
  | .log (.finish id) => ∀ writer group event, world.log.writers id = some writer →
    writer.record.val = .groupTransitioned group event →
      ∀ r handler commit, world.handlers r = some handler → handler.phase = .committing commit →
        commit.group.val = group → ¬ commit.Owes handler.authz world.log
  | _ => True

structure World.Kept (world : World) : Prop where
  queued : world.log.Queued
  /-- Who still has an offset to append is in the group's generation. -/
  current : ∀ r handler commit, world.handlers r = some handler →
    handler.phase = .committing commit → commit.Owes handler.authz world.log →
      Current (world.log.coordinator.record commit.group) handler.request.generationId
  /-- A writer of a request is in flight there, or its call has returned. -/
  owned : ∀ id group generation, world.owners id = some (group, generation) →
    world.log.Ended id ∨ ∃ r handler commit topic partition, world.handlers r = some handler ∧
      handler.phase = .committing commit ∧ commit.topic = some topic ∧
      topic.inFlight = some (partition, id) ∧ commit.group.val = group ∧
      handler.request.generationId = generation
  fresh : ∀ one ∈ world.appended, Current one.record one.generation
  ordered : world.appended.Pairwise fun first later =>
    first.group = later.group → first.generation ≤ later.generation
  reached : ∀ one ∈ world.appended, ∃ record,
    world.log.coordinator.record one.group = some record ∧ one.generation ≤ record.generation

variable {world next : World} {r : Nat} {handler : Handler}

/-- Whoever passes the fence names the group's generation, in which it is stable. -/
theorem current_of_fence {loading tracked : Bool} {record : Option GroupRecord} {generation : Int}
    (passed : fence {
      loadInProgress := loading
      memberTracked := tracked
      record
      generationId := some generation
      acceptableStates := some [.stable] } = .ok ()) :
    Current record generation := by
  unfold fence at passed
  dsimp only at passed
  split at passed
  · cases passed
  split at passed
  · cases passed
  split at passed
  · cases passed
  split at passed
  · cases passed
  split at passed
  · cases passed
  · rename_i held generations
    split at passed
    · cases passed
    · rename_i states
      simp only [Option.any_some, decide_eq_true_eq, not_not] at generations states
      exact ⟨held, rfl, List.mem_singleton.mp states, generations.symm⟩

theorem TopicCommit.Owes.earlier {topic : TopicCommit} {log later : GroupLog.World}
    (unlanded : ∀ id, later.Unlanded id → log.Unlanded id) (owes : topic.Owes later) :
    topic.Owes log := by
  rcases owes with left | ⟨partition, id, inFlight, out⟩
  · exact Or.inl left
  · exact Or.inr ⟨partition, id, inFlight, unlanded id out⟩

theorem Committing.Owes.earlier {commit : Committing} {authz : Broker.AuthzContext}
    {log later : GroupLog.World} (unlanded : ∀ id, later.Unlanded id → log.Unlanded id)
    (owes : commit.Owes authz later) : commit.Owes authz log := by
  rcases owes with ⟨topic, there, owes⟩ | left
  · exact Or.inl ⟨topic, there, owes.earlier unlanded⟩
  · exact Or.inr left

/-- A request goes on, and has no offset left to append that it had not before. -/
theorem World.Kept.setPhase (kept : world.Kept) (there : world.handlers r = some handler)
    {phase : Phase}
    (current : ∀ commit, phase = .committing commit → commit.Owes handler.authz world.log →
      Current (world.log.coordinator.record commit.group) handler.request.generationId)
    (released : ∀ commit topic partition id, handler.phase = .committing commit →
      commit.topic = some topic → topic.inFlight = some (partition, id) → world.log.Ended id) :
    (world.setPhase r handler phase).Kept where
  queued := kept.queued
  current := by
    intro r' handler' commit there' committing owes
    by_cases same : r' = r
    · rw [same] at there'
      rw [show (world.setPhase r handler phase).handlers r = some { handler with phase } from
        Function.update_self _ _ _] at there'
      cases there'
      exact current commit committing owes
    · refine kept.current r' handler' commit ?_ committing owes
      exact (Function.update_of_ne same _ _).symm.trans there'
  owned := by
    intro id group generation owner
    rcases kept.owned id group generation owner with ended | held
    · exact Or.inl ended
    · obtain ⟨r', handler', commit, topic, partition, there', committing, at_, inFlight, rest⟩ := held
      by_cases same : r' = r
      · rw [same, there] at there'
        cases there'
        exact Or.inl (released commit topic partition id committing at_ inFlight)
      · exact Or.inr ⟨r', handler', commit, topic, partition,
          (Function.update_of_ne same _ _).trans there', committing, at_, inFlight, rest⟩
  fresh := kept.fresh
  ordered := kept.ordered
  reached := kept.reached

theorem World.Kept.track (kept : world.Kept) (there : world.handlers r = some handler)
    (arrived : handler.phase = .arrived) : (world.track r handler).Kept := by
  have waits (commit : Committing) (topic : TopicCommit) (partition : RequestPartition) (id : Nat)
      (committing : handler.phase = .committing commit) (at_ : commit.topic = some topic)
      (inFlight : topic.inFlight = some (partition, id)) : world.log.Ended id := by
    rw [arrived] at committing
    cases committing
  unfold World.track
  dsimp only
  split
  · split
    · exact kept.setPhase there (fun _ same => nomatch same) waits
    · exact kept.setPhase there (fun _ same => nomatch same) waits
  · exact kept.setPhase there (fun _ same => nomatch same) waits

theorem World.Kept.fenceCommit (kept : world.Kept) (there : world.handlers r = some handler)
    {group : ProperGroup} {tracked : Bool} (fencing : handler.phase = .fencing group tracked) :
    (world.fenceCommit r handler group tracked).Kept := by
  have waits (commit : Committing) (topic : TopicCommit) (partition : RequestPartition) (id : Nat)
      (committing : handler.phase = .committing commit) (at_ : commit.topic = some topic)
      (inFlight : topic.inFlight = some (partition, id)) : world.log.Ended id := by
    rw [fencing] at committing
    cases committing
  unfold World.fenceCommit
  split
  · exact kept.setPhase there (fun _ same => nomatch same) waits
  · rename_i passed
    refine kept.setPhase there ?_ waits
    intro commit same _
    cases same
    exact current_of_fence passed

theorem World.Kept.commitTopic (kept : world.Kept) (there : world.handlers r = some handler)
    {commit : Committing} (committing : handler.phase = .committing commit)
    (idle : commit.topic = none) {topic : RequestTopic} {topics : List RequestTopic}
    (next : commit.topics = topic :: topics) :
    (world.commitTopic r handler commit topic topics).Kept := by
  have waits (commit' : Committing) (topic' : TopicCommit) (partition : RequestPartition) (id : Nat)
      (committing' : handler.phase = .committing commit') (at_ : commit'.topic = some topic')
      (inFlight : topic'.inFlight = some (partition, id)) : world.log.Ended id := by
    rw [committing] at committing'
    cases committing'
    rw [idle] at at_
    cases at_
  have before := kept.current r handler commit there committing
  -- what is owed of the topics that follow was owed before
  have follows {topic' : RequestTopic} (among : topic' ∈ topics)
      (left : Broker.topicAuthorized topic'.name handler.authz = true ∧
        topic'.name.isEmpty = false ∧ topic'.partitions ≠ []) :
      commit.Owes handler.authz world.log := by
    refine Or.inr ⟨topic', ?_, left⟩
    rw [next]
    exact .tail _ among
  unfold World.commitTopic
  split
  · refine kept.setPhase there ?_ waits
    rintro _ ⟨⟩ owes
    rcases owes with ⟨topic', at_, -⟩ | ⟨topic', among, left⟩
    · rw [idle] at at_
      cases at_
    · exact before (follows among left)
  · rename_i authorized
    split
    · rename_i proper
      refine kept.setPhase there ?_ waits
      rintro _ ⟨⟩ owes
      rcases owes with ⟨topic', at_, owes⟩ | ⟨topic', among, left⟩
      · cases at_
        rcases owes with left | ⟨partition, id, inFlight, -⟩
        · refine before (Or.inr ⟨topic, ?_, ?_, proper, left⟩)
          · rw [next]
            exact .head _
          · simpa using authorized
        · cases inFlight
      · exact before (follows among left)
    · refine kept.setPhase there ?_ waits
      rintro _ ⟨⟩ owes
      rcases owes with ⟨topic', at_, -⟩ | ⟨topic', among, left⟩
      · rw [idle] at at_
        cases at_
      · exact before (follows among left)

/-- A writer takes a step that changes nothing the coordinator has, and no request does. -/
theorem World.Kept.logged (kept : world.Kept) {log : GroupLog.World} {id : Nat}
    {after : GroupLog.Writer} (moved : world.log.Moved log id after) (queued : log.Queued)
    (same : ∀ group, log.coordinator.record group = world.log.coordinator.record group) :
    World.Kept { world with log } where
  queued := queued
  current := by
    intro r' handler' commit there committing owes
    dsimp only
    rw [same]
    exact kept.current r' handler' commit there committing (owes.earlier fun _ => moved.unlanded)
  owned := by
    intro id group generation owner
    rcases kept.owned id group generation owner with ended | held
    · exact Or.inl (moved.ended ended)
    · exact Or.inr held
  fresh := kept.fresh
  ordered := kept.ordered
  reached := by
    intro one among
    dsimp only
    rw [same]
    exact kept.reached one among

/-- A handler notes what the writer of its commit was answered. -/
theorem World.Kept.hears (kept : world.Kept) (there : world.handlers r = some handler)
    {commit : Committing} (committing : handler.phase = .committing commit) {topic : TopicCommit}
    (at_ : commit.topic = some topic) {partition : RequestPartition} {writer : Nat}
    (inFlight : topic.inFlight = some (partition, writer)) {answer : Except Error Unit}
    (phase : (world.log.writers writer).map GroupLog.Writer.phase = some (.answered answer)) :
    (world.setPhase r handler (.committing { commit with topic := some { topic with
      answered := topic.answered ++ [⟨partition.partitionIndex, codeOf answer⟩]
      inFlight := none } })).Kept := by
  obtain ⟨held, there', answered⟩ := Option.map_eq_some_iff.mp phase
  refine kept.setPhase there ?_ ?_
  · rintro _ ⟨⟩ owes
    refine kept.current r handler commit there committing ?_
    rcases owes with ⟨topic', ⟨⟩, owes⟩ | left
    · refine Or.inl ⟨topic, at_, ?_⟩
      rcases owes with left | ⟨partition', id, inFlight', -⟩
      · exact Or.inl left
      · cases inFlight'
    · exact Or.inr left
  · intro commit' topic' partition' id committing' at_' inFlight'
    cases committing.symm.trans committing'
    cases at_.symm.trans at_'
    cases inFlight.symm.trans inFlight'
    refine ⟨held, there', ?_⟩
    rw [answered]
    rfl

theorem World.Kept.closesTopic (kept : world.Kept) (there : world.handlers r = some handler)
    {commit : Committing} (committing : handler.phase = .committing commit) {topic : TopicCommit}
    (at_ : commit.topic = some topic) (idle : topic.inFlight = none) :
    (world.setPhase r handler (.committing { commit with
      answered := commit.answered ++ [⟨topic.name, topic.answered⟩]
      topic := none })).Kept := by
  refine kept.setPhase there ?_ ?_
  · rintro _ ⟨⟩ owes
    refine kept.current r handler commit there committing ?_
    rcases owes with ⟨topic', ⟨⟩, -⟩ | left
    exact Or.inr left
  · intro commit' topic' partition id committing' at_' inFlight'
    cases committing.symm.trans committing'
    cases at_.symm.trans at_'
    cases idle.symm.trans inFlight'

/-- The next partition's commit is under way: the request is in flight with its writer. -/
theorem World.Kept.sends (kept : world.Kept) (there : world.handlers r = some handler)
    {commit : Committing} (committing : handler.phase = .committing commit) {topic : TopicCommit}
    (at_ : commit.topic = some topic) (idle : topic.inFlight = none) {partition : RequestPartition}
    {rest : List RequestPartition} (partitions : topic.partitions = partition :: rest) {id : Nat}
    {log : GroupLog.World}
    (started : world.log.step (.commit id (partition.record commit.group topic.topic)) = some log) :
    ({ world with
      log
      owners := Function.update world.owners id
        (some (commit.group.val, handler.request.generationId)) }.setPhase r handler
      (.committing { commit with topic := some (topic.sending partition id rest) })).Kept := by
  obtain ⟨id', after, moved, queued, -, serves⟩ := GroupLog.World.step_advances kept.queued started
  have still : ∀ group, log.coordinator.record group = world.log.coordinator.record group := by
    rcases serves with still | ⟨id'', _, _, _, _, finishes, -⟩
    · exact still
    · cases finishes
  have kept' := kept.logged moved queued still
  have on := @World.Kept.setPhase { world with log } r handler kept' there
    (.committing { commit with topic := some (topic.sending partition id rest) })
    (by
      rintro _ ⟨⟩ owes
      dsimp only
      rw [still]
      refine kept.current r handler commit there committing ?_
      rcases owes with ⟨topic', ⟨⟩, -⟩ | left
      · refine Or.inl ⟨topic, at_, Or.inl ?_⟩
        rw [partitions]
        exact List.cons_ne_nil _ _
      · exact Or.inr left)
    (by
      intro commit' topic' partition' id committing' at_' inFlight'
      cases committing.symm.trans committing'
      cases at_.symm.trans at_'
      cases idle.symm.trans inFlight')
  refine ⟨on.queued, on.current, ?_, on.fresh, on.ordered, on.reached⟩
  intro other group generation owner
  by_cases here : other = id
  · rw [here] at owner ⊢
    have mine : Function.update world.owners id
      (some (commit.group.val, handler.request.generationId)) id = some (group, generation) :=
      owner
    rw [Function.update_self] at mine
    cases mine
    exact Or.inr ⟨r, { handler with
      phase := .committing { commit with topic := some (topic.sending partition id rest) } },
      _, topic.sending partition id rest, partition, Function.update_self _ _ _,
      rfl, rfl, rfl, rfl, rfl⟩
  · refine on.owned other group generation ?_
    rw [← owner]
    exact (Function.update_of_ne here _ _).symm

theorem World.Kept.advance (kept : world.Kept) (there : world.handlers r = some handler)
    {commit : Committing} (committing : handler.phase = .committing commit) {id : Nat}
    (stepped : world.advance r id handler commit = some next) : next.Kept := by
  unfold World.advance at stepped
  cases at_ : commit.topic with
  | none =>
    rw [at_] at stepped
    cases topics : commit.topics with
    | nil =>
      rw [topics] at stepped
      cases stepped
      refine kept.setPhase there (fun _ same => nomatch same) ?_
      intro commit' topic partition id committing' at_'
      cases committing.symm.trans committing'
      cases at_.symm.trans at_'
    | cons topic rest =>
      rw [topics] at stepped
      cases stepped
      exact kept.commitTopic there committing at_ topics
  | some topic =>
    rw [at_] at stepped
    dsimp only at stepped
    cases inFlight : topic.inFlight with
    | some out =>
      obtain ⟨partition, writer⟩ := out
      rw [inFlight] at stepped
      dsimp only at stepped
      split at stepped
      · rename_i answer phase
        cases stepped
        exact kept.hears there committing at_ inFlight phase
      · cases stepped
    | none =>
      rw [inFlight] at stepped
      dsimp only at stepped
      cases partitions : topic.partitions with
      | nil =>
        rw [partitions] at stepped
        cases stepped
        exact kept.closesTopic there committing at_ inFlight
      | cons partition rest =>
        rw [partitions] at stepped
        obtain ⟨log, started, rfl⟩ := Option.map_eq_some_iff.mp stepped
        exact kept.sends there committing at_ inFlight partitions started

theorem World.appending_of_line {log : GroupLog.World} (line : log.line = world.log.line) :
    world.appending log = [] := by
  unfold World.appending
  rw [line, List.drop_length]
  rfl

theorem World.mem_appending {log : GroupLog.World} {id : Nat} {entry : GroupLog.Entry}
    (line : log.line = world.log.line ++ [(id, entry)]) :
    world.appending log = ((world.owners id).map fun owner =>
      ⟨owner.1, owner.2, entry, world.log.coordinator.record owner.1⟩).toList := by
  unfold World.appending
  rw [line, List.drop_left]
  cases owner : world.owners id with
  | none => simp [owner]
  | some owner => simp [owner]

/-- What is appended for a request is appended while its group is stable at the generation
the request names. -/
theorem World.Kept.appending_current (kept : world.Kept) {log : GroupLog.World} {action : Action}
    (lands : world.log.Lands log action) {one : Appended} (among : one ∈ world.appending log) :
    one.record = world.log.coordinator.record one.group ∧ Current one.record one.generation ∧
      world.appending log = [one] := by
  rcases lands with line | ⟨id, writer, entry, append, -, there, putting, line⟩
  · rw [World.appending_of_line line] at among
    cases among
  · rw [World.mem_appending line] at among ⊢
    cases owner : world.owners id with
    | none =>
      rw [owner] at among
      cases among
    | some owner' =>
      obtain ⟨group, generation⟩ := owner'
      rw [owner] at among
      obtain rfl := List.mem_singleton.mp among
      refine ⟨rfl, ?_, rfl⟩
      rcases kept.owned id group generation owner with ⟨ended, there', phase⟩ | held
      · rw [there] at there'
        cases there'
        rw [putting] at phase
        cases phase
      · obtain ⟨r, handler, commit, topic, partition, at_, committing, commits, inFlight, rfl, rfl⟩ :=
          held
        refine kept.current r handler commit at_ committing (Or.inl ⟨topic, commits, Or.inr ?_⟩)
        refine ⟨partition, id, inFlight, ?_⟩
        intro writer' there'
        rw [there] at there'
        cases there'
        rw [putting]
        rfl

/-- A step of the log's writers, if it applies no transition under a request that still has an
offset to append. -/
theorem World.Kept.logStep (kept : world.Kept) {action : Action}
    (stepped : world.logStep action = some next)
    (clear : ∀ id writer group event, action = .finish id → world.log.writers id = some writer →
      writer.record.val = .groupTransitioned group event →
        ∀ r handler commit, world.handlers r = some handler → handler.phase = .committing commit →
          commit.group.val = group → ¬ commit.Owes handler.authz world.log) : next.Kept := by
  obtain ⟨log, logged, rfl⟩ : ∃ log, world.log.step action = some log ∧
      { world with log, appended := world.appended ++ world.appending log } = next := by
    unfold World.logStep at stepped
    split at stepped
    · cases stepped
    · exact Option.map_eq_some_iff.mp stepped
  obtain ⟨id, after, moved, queued, lands, serves⟩ := GroupLog.World.step_advances kept.queued logged
  have owed {r : Nat} {handler : Handler} {commit : Committing}
      (there : world.handlers r = some handler) (committing : handler.phase = .committing commit)
      (owes : commit.Owes handler.authz log) :
      Current (log.coordinator.record commit.group) handler.request.generationId := by
    have owes' := owes.earlier fun _ => moved.unlanded
    have current := kept.current r handler commit there committing owes'
    rcases serves with still | ⟨id, writer, entry, group, event, finishes, held, -, record, _,
      -, records⟩
    · rw [still]
      exact current
    · rw [records, if_neg]
      · exact current
      · intro same
        exact clear id writer group event finishes held record r handler commit there committing
          same owes'
  -- generations only grow
  have grows {group : GroupId} {record : GroupRecord}
      (held : world.log.coordinator.record group = some record) :
      ∃ later, log.coordinator.record group = some later ∧ record.generation ≤ later.generation := by
    rcases serves with still | ⟨id, writer, entry, group', event, -, -, -, -, later, legal, records⟩
    · exact ⟨record, by rw [still, held], le_refl _⟩
    · by_cases same : group = group'
      · obtain rfl := same
        rw [held] at legal
        exact ⟨later, by rw [records, if_pos rfl], GroupRecord.generation_le_transition legal⟩
      · exact ⟨record, by rw [records, if_neg same, held], le_refl _⟩
  refine ⟨queued, fun r handler commit there committing owes => owed there committing owes, ?_,
    ?_, ?_, ?_⟩
  · intro id group generation owner
    rcases kept.owned id group generation owner with ended | held
    · exact Or.inl (moved.ended ended)
    · exact Or.inr held
  · intro one among
    rcases List.mem_append.mp among with before | now
    · exact kept.fresh one before
    · exact (kept.appending_current lands now).2.1
  · refine List.pairwise_append.mpr ⟨kept.ordered, ?_, ?_⟩
    · cases appending : world.appending log with
      | nil => exact .nil
      | cons one rest =>
        have only := (kept.appending_current lands (by rw [appending]; exact .head _)).2.2
        rw [appending] at only
        rw [only]
        exact List.pairwise_singleton _ _
    · intro first before later now same
      obtain ⟨record, held, reached⟩ := kept.reached first before
      obtain ⟨here, ⟨record', held', -, generation⟩, -⟩ := kept.appending_current lands now
      rw [here, ← same, held] at held'
      cases held'
      exact reached.trans generation.le
  · intro one among
    rcases List.mem_append.mp among with before | now
    · obtain ⟨record, held, reached⟩ := kept.reached one before
      obtain ⟨later, held', le⟩ := grows held
      exact ⟨later, held', reached.trans le⟩
    · obtain ⟨here, ⟨record, held, -, generation⟩, -⟩ := kept.appending_current lands now
      rw [here] at held
      obtain ⟨later, held', le⟩ := grows held
      exact ⟨later, held', generation ▸ le⟩

theorem World.Kept.step (kept : world.Kept) {event : Event}
    (stepped : world.step event = some next) (clear : world.Clear event) : next.Kept := by
  cases event with
  | request r request authz groupAuthz =>
    unfold World.step at stepped
    dsimp only at stepped
    split at stepped
    · cases stepped
    · rename_i free
      cases stepped
      have other {r' : Nat} {handler : Handler} (there : world.handlers r' = some handler) :
          r' ≠ r := by
        rintro rfl
        rw [there] at free
        exact free rfl
      refine ⟨kept.queued, ?_, ?_, kept.fresh, kept.ordered, kept.reached⟩
      · intro r' handler commit there committing owes
        by_cases same : r' = r
        · rw [same] at there
          replace there := (Function.update_self _ _ _).symm.trans there
          cases there
          cases committing
        · exact kept.current r' handler commit ((Function.update_of_ne same _ _).symm.trans there)
            committing owes
      · intro id group generation owner
        rcases kept.owned id group generation owner with
          ended | ⟨r', handler, commit, topic, partition, there, rest⟩
        · exact Or.inl ended
        · exact Or.inr ⟨r', handler, commit, topic, partition,
            (Function.update_of_ne (other there) _ _).trans there, rest⟩
  | track r =>
    obtain ⟨handler, there, stepped⟩ := Option.bind_eq_some_iff.mp stepped
    split at stepped
    · rename_i arrived
      cases stepped
      exact kept.track there arrived
    · cases stepped
  | fence r =>
    obtain ⟨handler, there, stepped⟩ := Option.bind_eq_some_iff.mp stepped
    split at stepped
    · rename_i group tracked fencing
      cases stepped
      exact kept.fenceCommit there fencing
    · cases stepped
  | advance r id =>
    obtain ⟨handler, there, stepped⟩ := Option.bind_eq_some_iff.mp stepped
    split at stepped
    · rename_i commit committing
      exact kept.advance there committing stepped
    · cases stepped
  | log action =>
    refine kept.logStep stepped ?_
    rintro id writer group event rfl
    exact clear writer group event
  | register group member =>
    unfold World.step at stepped
    dsimp only at stepped
    split at stepped
    · cases stepped
      exact kept
    · cases stepped
      exact ⟨kept.queued, kept.current, kept.owned, kept.fresh, kept.ordered, kept.reached⟩
  | remove group member id =>
    unfold World.step World.remove at stepped
    dsimp only at stepped
    split at stepped
    · refine World.Kept.logStep ?_ stepped fun _ _ _ _ same => nomatch same
      exact ⟨kept.queued, kept.current, kept.owned, kept.fresh, kept.ordered, kept.reached⟩
    · cases stepped
      exact kept
  | ready =>
    cases stepped
    exact ⟨kept.queued, kept.current, kept.owned, kept.fresh, kept.ordered, kept.reached⟩

/-- A node whose group log has no writer yet, whatever the log and the groups hold. -/
structure Start (world : World) : Prop where
  writers : world.log.writers = fun _ => none
  queue : world.log.queue = []
  handlers : world.handlers = fun _ => none
  owners : world.owners = fun _ => none
  appended : world.appended = []

theorem Start.kept (start : Start world) : world.Kept where
  queued := by
    refine ⟨?_, ?_⟩
    · rw [start.queue]
      exact .nil
    · rw [start.queue]
      exact nofun
  current := by
    intro r handler commit there
    rw [start.handlers] at there
    cases there
  owned := by
    intro id group generation owner
    rw [start.owners] at owner
    cases owner
  fresh := by
    intro one among
    rw [start.appended] at among
    cases among
  ordered := by
    rw [start.appended]
    exact .nil
  reached := by
    intro one among
    rw [start.appended] at among
    cases among

/-- In every run whose steps are all clear, every record of a request is appended while its
group is stable at the generation the request names, and none after one that names a later
generation. -/
theorem commits_current {start world : World} (started : Start start) {events : List Event}
    (ran : Steps.run World.step start events = some world)
    (clear : ∀ before event after mid, events = before ++ event :: after →
      Steps.run World.step start before = some mid → mid.Clear event) :
    (∀ one ∈ world.appended, Current one.record one.generation) ∧
      world.appended.Pairwise fun first later =>
        first.group = later.group → first.generation ≤ later.generation := by
  have kept : world.Kept := by
    refine Steps.run_history (fun events world =>
      (∀ before event after mid, events = before ++ event :: after →
        Steps.run World.step start before = some mid → mid.Clear event) → world.Kept)
      (fun _ => started.kept) ?_ ran clear
    intro before mid event next ran kept stepped clear
    refine (kept ?_).step stepped (clear before event [] mid rfl ran)
    rintro front event' back mid' rfl ran'
    exact clear front event' (back ++ [event]) mid' (by simp) ran'
  exact ⟨kept.fresh, kept.ordered⟩

/-- A group of two members that is stable at its first generation. -/
def stableStart : World where
  log := {
    log := ⟨0, [], none, 0, none, 0⟩
    coordinator := {
      groups := (∅ : Finmap fun _ : GroupId => GroupRecord).insert ⟨"g"⟩ ⟨.stable, 1, 1⟩ } }
  members := [(⟨"g"⟩, "a"), (⟨"g"⟩, "b")]

theorem start_stableStart : Start stableStart := ⟨rfl, rfl, rfl, rfl, rfl⟩

def requestOf (generation : Int) (member : String) (partition : RequestPartition) : Request :=
  ⟨"g", generation, member, [⟨"t", [partition]⟩]⟩

/-- A request's steps up to its first record. -/
def upToCommit (r id : Nat) (request : Request) : List Event :=
  [.request r request ⟨none, false, []⟩ ⟨none, false, []⟩, .track r, .fence r, .advance r 0,
    .advance r id]

/-- A writer's steps once it has its turn. -/
def through (id : Nat) : List Event :=
  [.log (.read id), .log (.append id), .log (.put id), .log (.publish id), .log (.finish id)]

def committedRun : List Event :=
  upToCommit 1 101 (requestOf 1 "a" ⟨0, 5, by decide, by decide⟩) ++
    [.log (.read 101), .log (.append 101), .log (.put 101)]

theorem commits_current_once : ∃ world, Steps.run World.step stableStart committedRun = some world ∧
    world.appended.length = 1 ∧ ∀ one ∈ world.appended, Current one.record one.generation := by
  have appended : (Steps.run World.step stableStart committedRun).map
      (fun world => world.appended.length) = some 1 := by
    decide +kernel
  obtain ⟨world, ran, appended⟩ := Option.map_eq_some_iff.mp appended
  refine ⟨world, ran, appended, (commits_current start_stableStart ran ?_).1⟩
  -- nothing of the run applies a transition
  intro before event after mid same _
  have among : event ∈ committedRun := by
    rw [same]
    simp
  fin_cases among
  all_goals trivial

/-- Member `a` reads the log's last version and is removed; the group comes to its second
generation, in which member `b` commits; then the commit of `a` goes on. -/
def rebalancedRun : List Event :=
  upToCommit 1 101 (requestOf 1 "a" ⟨0, 5, by decide, by decide⟩) ++ .log (.read 101) ::
    .remove ⟨⟨"g"⟩, rfl⟩ "a" 200 :: .log .receive :: through 200 ++
    .log (.enqueue 201 ⟨.groupTransitioned ⟨"g"⟩ .joinBarrierComplete, rfl⟩) :: .log .receive ::
    through 201 ++ .log (.enqueue 202 ⟨.groupTransitioned ⟨"g"⟩ .syncComplete, rfl⟩) ::
    .log .receive :: through 202 ++
    upToCommit 2 102 (requestOf 2 "b" ⟨0, 10, by decide, by decide⟩) ++ through 102 ++
    .log (.append 101) :: through 101

/-- The commit of `a` lands in the second generation, after that of `b`, whose offset is lost. -/
theorem commits_rewound : ∃ world, Steps.run World.step stableStart rebalancedRun = some world ∧
    Start stableStart ∧ ¬ (∀ one ∈ world.appended, Current one.record one.generation) ∧
    ¬ (world.appended.Pairwise fun first later =>
      first.group = later.group → first.generation ≤ later.generation) ∧
    world.log.offsets.lookup (⟨"g"⟩, ⟨"t"⟩, 0) = some (4, 5) := by
  have appended : (Steps.run World.step stableStart rebalancedRun).map (fun world =>
      (world.appended.map fun one => (one.group, one.generation, one.record),
        world.log.offsets.lookup (⟨"g"⟩, ⟨"t"⟩, 0))) =
      some ([(⟨"g"⟩, 2, some ⟨.stable, 2, 2⟩), (⟨"g"⟩, 1, some ⟨.stable, 2, 2⟩)], some (4, 5)) := by
    decide +kernel
  obtain ⟨world, ran, appended⟩ := Option.map_eq_some_iff.mp appended
  obtain ⟨appended, offset⟩ := Prod.mk.inj appended
  refine ⟨world, ran, start_stableStart, ?_, ?_, offset⟩
  · intro current
    have all : ∀ one ∈ world.appended.map fun one => (one.group, one.generation, one.record),
        Current one.2.2 one.2.1 := by
      intro _ among
      obtain ⟨one, there, rfl⟩ := List.mem_map.mp among
      exact current one there
    rw [appended] at all
    obtain ⟨record, held, -, generation⟩ := all _ (.tail _ (.head _))
    cases held
    cases generation
  · intro ordered
    have ordered' : (world.appended.map fun one => (one.group, one.generation, one.record)).Pairwise
        fun first later => first.1 = later.1 → first.2.1 ≤ later.2.1 :=
      List.pairwise_map.mpr ordered
    rw [appended] at ordered'
    have le := List.rel_of_pairwise_cons ordered' (.head _) rfl
    exact absurd le (by decide)

end Oqueue.OffsetCommit
