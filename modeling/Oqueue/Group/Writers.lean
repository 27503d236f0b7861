import Oqueue.Group.Appending

/-!
# What one step does to the writers of the group log

Every step moves one writer on. One kind of step makes a record durable, and one changes
what the coordinator has of a group.
-/

namespace Oqueue.GroupLog

open Checked Log

/-- Whether nothing of a writer's will be appended any more. -/
def Phase.past : Phase → Bool
  | .refused _ | .landed .. | .logged _ | .answered _ => true
  | _ => false

/-- Whether a writer's call has returned. -/
def Phase.ended : Phase → Bool
  | .refused _ | .answered _ => true
  | _ => false

namespace World

/-- Who waits for the transitions' task waits once and has not been served. -/
structure Queued (world : World) : Prop where
  nodup : world.queue.Nodup
  waits : ∀ id ∈ world.queue, ∃ writer, world.writers id = some writer ∧ writer.phase = .queued

structure Moved (world next : World) (id : Nat) (after : Writer) : Prop where
  writers : next.writers = Function.update world.writers id (some after)
  before : ∀ before, world.writers id = some before → before.phase.ended = false ∧
    (before.phase.past = true → after.phase.past = true)

/-- Whether a writer's record is not appended yet. -/
def Unlanded (world : World) (id : Nat) : Prop :=
  ∀ writer, world.writers id = some writer → writer.phase.past = false

/-- Whether a writer's call has returned. -/
def Ended (world : World) (id : Nat) : Prop :=
  ∃ writer, world.writers id = some writer ∧ writer.phase.ended = true

variable {world next : World} {id : Nat}

theorem Moved.unlanded {after : Writer} (moved : world.Moved next id after) {other : Nat}
    (unlanded : next.Unlanded other) : world.Unlanded other := by
  intro writer there
  by_cases same : other = id
  · obtain rfl := same
    have after' := unlanded after (by rw [moved.writers, Function.update_self])
    by_contra past
    rw [Bool.not_eq_false] at past
    rw [(moved.before writer there).2 past] at after'
    cases after'
  · refine unlanded writer ?_
    rw [moved.writers, Function.update_of_ne same]
    exact there

theorem Moved.ended {after : Writer} (moved : world.Moved next id after) {other : Nat}
    (ended : world.Ended other) : next.Ended other := by
  obtain ⟨writer, there, ended⟩ := ended
  refine ⟨writer, ?_, ended⟩
  rw [moved.writers, Function.update_of_ne]
  · exact there
  · rintro rfl
    rw [(moved.before writer there).1] at ended
    cases ended

theorem retry_eq (world : World) (id : Nat) (writer : Writer) : ∃ after : Writer,
    (world.retry id writer).writers = Function.update world.writers id (some after) ∧
      after.phase ≠ .queued ∧ (world.retry id writer).line = world.line ∧
      (world.retry id writer).coordinator = world.coordinator ∧
      (world.retry id writer).queue = world.queue := by
  unfold retry
  dsimp only
  split
  · exact ⟨_, rfl, nofun, rfl, rfl, rfl⟩
  · exact ⟨_, rfl, nofun, rfl, rfl, rfl⟩

theorem receive_eq (world : World) (id : Nat) (writer : Writer) : ∃ after : Writer,
    (world.receive id writer).writers = Function.update world.writers id (some after) ∧
      after.phase ≠ .queued ∧ (world.receive id writer).line = world.line ∧
      (world.receive id writer).coordinator = world.coordinator ∧
      (world.receive id writer).queue = world.queue := by
  unfold receive
  split
  · split
    · exact ⟨_, rfl, nofun, rfl, rfl, rfl⟩
    · exact ⟨_, rfl, nofun, rfl, rfl, rfl⟩
  · exact ⟨_, rfl, nofun, rfl, rfl, rfl⟩

theorem append_eq (world : World) (id : Nat) (writer : Writer) (entry : Entry) :
    ∃ after : Writer, (world.append id writer entry).writers =
        Function.update world.writers id (some after) ∧
      after.phase ≠ .queued ∧ (world.append id writer entry).line = world.line ∧
      (world.append id writer entry).coordinator = world.coordinator ∧
      (world.append id writer entry).queue = world.queue := by
  unfold append
  split
  · exact ⟨_, rfl, nofun, rfl, rfl, rfl⟩
  · exact ⟨_, rfl, nofun, rfl, rfl, rfl⟩
  · exact retry_eq world id writer
  · exact ⟨_, rfl, nofun, rfl, rfl, rfl⟩

theorem put_eq (world : World) (id : Nat) (writer : Writer) (entry : Entry)
    (append : Log.Append Entry) :
    ∃ after : Writer, (world.put id writer entry append).writers =
        Function.update world.writers id (some after) ∧
      after.phase.past = true ∧
      ((world.put id writer entry append).line = world.line ∨
        (world.put id writer entry append).line = world.line ++ [(id, entry)]) ∧
      (world.put id writer entry append).coordinator = world.coordinator ∧
      (world.put id writer entry append).queue = world.queue := by
  unfold put
  split
  · exact ⟨_, rfl, rfl, Or.inr rfl, rfl, rfl⟩
  · exact ⟨_, rfl, rfl, Or.inl rfl, rfl, rfl⟩

theorem publish_eq (world : World) (id : Nat) (writer : Writer) (entry : Entry)
    (append : Log.Append Entry) :
    ∃ after : Writer, (world.publish id writer entry append).writers =
        Function.update world.writers id (some after) ∧
      after.phase.past = true ∧ (world.publish id writer entry append).line = world.line ∧
      (world.publish id writer entry append).coordinator = world.coordinator ∧
      (world.publish id writer entry append).queue = world.queue := by
  unfold publish
  split
  · exact ⟨_, rfl, rfl, rfl, rfl, rfl⟩
  · exact ⟨_, rfl, rfl, rfl, rfl, rfl⟩

def Transitioned (before after : GroupCoordinator) (group : GroupId) (event : GroupEvent) : Prop :=
  ∃ record, ((before.record group).getD .fresh).transition event = .ok record ∧
    ∀ other, after.record other = if other = group then some record else before.record other

theorem record_setRoster (coordinator : GroupCoordinator) (group other : GroupId)
    (roster : Option GroupRosterSnapshot) :
    (coordinator.setRoster group roster).record other = coordinator.record other := by
  cases roster with
  | none => rfl
  | some roster => rfl

theorem transition_transitioned {coordinator after : GroupCoordinator} {group : GroupId}
    {event : GroupEvent} {record : GroupRecord}
    (taken : coordinator.transition group event = .ok (after, record)) :
    Transitioned coordinator after group event := by
  unfold GroupCoordinator.transition at taken
  obtain ⟨record', legal, done⟩ := bind_eq_ok.mp taken
  cases done
  exact ⟨_, legal, fun other => Table.lookup_insert_eq _ _ _ _⟩

/-- What a record's application changes of the coordinator's records. -/
theorem applied_eq_ok {record : GroupMetadataRecord} {version : Nat}
    (applied : world.applied record version = .ok next) :
    next.writers = world.writers ∧ next.line = world.line ∧ next.queue = world.queue ∧
      ((∀ group, next.coordinator.record group = world.coordinator.record group) ∨
        ∃ group event, record = .groupTransitioned group event ∧
          Transitioned world.coordinator next.coordinator group event) := by
  cases record with
  | offsetCommitted group topic partition offset =>
    cases applied
    exact ⟨rfl, rfl, rfl, Or.inl fun _ => rfl⟩
  | groupTransitioned group event =>
    obtain ⟨⟨coordinator, record⟩, taken, done⟩ := bind_eq_ok.mp applied
    cases done
    refine ⟨rfl, rfl, rfl, Or.inr ⟨group, event, rfl, ?_⟩⟩
    obtain ⟨record', legal, records⟩ := transition_transitioned taken
    refine ⟨record', legal, fun other => ?_⟩
    dsimp only
    split
    · rw [record_setRoster]
      exact records other
    · exact records other
  | groupRosterUpdated group roster =>
    cases applied
    exact ⟨rfl, rfl, rfl, Or.inl fun _ => record_setRoster _ _ _ _⟩

theorem Queued.moved (queued : world.Queued) {after : Writer}
    (writers : next.writers = Function.update world.writers id (some after))
    (queue : next.queue = world.queue)
    (other : ∀ writer, world.writers id = some writer → writer.phase ≠ .queued) : next.Queued where
  nodup := by
    rw [queue]
    exact queued.nodup
  waits := by
    intro waiting among
    rw [queue] at among
    obtain ⟨writer, there, phase⟩ := queued.waits waiting among
    refine ⟨writer, ?_, phase⟩
    rw [writers, Function.update_of_ne]
    · exact there
    · rintro rfl
      exact other writer there phase

theorem Queued.step (queued : world.Queued) {writer after : Writer}
    (there : world.writers id = some writer)
    (writers : next.writers = Function.update world.writers id (some after))
    (queue : next.queue = world.queue) (goes : writer.phase.ended = false)
    (past : writer.phase.past = true → after.phase.past = true) (other : writer.phase ≠ .queued) :
    world.Moved next id after ∧ next.Queued := by
  refine ⟨⟨writers, ?_⟩, queued.moved writers queue ?_⟩
  · intro before there'
    rw [there] at there'
    cases there'
    exact ⟨goes, past⟩
  · intro before there'
    rw [there] at there'
    cases there'
    exact other

/-- What a step appends to the line: nothing, or what a put makes durable. -/
def Lands (world next : World) (action : Action) : Prop :=
  next.line = world.line ∨ ∃ id writer entry append, action = .put id ∧
    world.writers id = some writer ∧ writer.phase = .putting entry append ∧
    next.line = world.line ++ [(id, entry)]

/-- What a step changes of the coordinator's records: nothing, or one by a transition that was
logged. -/
def Serves (world next : World) (action : Action) : Prop :=
  (∀ group, next.coordinator.record group = world.coordinator.record group) ∨
    ∃ id writer entry group event, action = .finish id ∧ world.writers id = some writer ∧
      writer.phase = .logged entry ∧ writer.record.val = .groupTransitioned group event ∧
      Transitioned world.coordinator next.coordinator group event

/-- What every step is: one writer moves, and the queue, the line and the coordinator with it. -/
def Advances (world next : World) (action : Action) : Prop :=
  ∃ id after, world.Moved next id after ∧ next.Queued ∧ world.Lands next action ∧
    world.Serves next action

section
variable {action : Action} {writer after : Writer}

theorem Serves.of_eq (coordinator : next.coordinator = world.coordinator) :
    world.Serves next action := by
  refine Or.inl fun group => ?_
  rw [coordinator]

theorem Moved.of_absent (absent : world.writers id = none)
    (writers : next.writers = Function.update world.writers id (some after)) :
    world.Moved next id after := by
  refine ⟨writers, ?_⟩
  intro before there
  rw [absent] at there
  cases there

theorem Queued.goes (queued : world.Queued) (there : world.writers id = some writer)
    (writers : next.writers = Function.update world.writers id (some after))
    (queue : next.queue = world.queue) (goes : writer.phase.ended = false)
    (past : writer.phase.past = true → after.phase.past = true) (other : writer.phase ≠ .queued)
    (line : next.line = world.line) (coordinator : next.coordinator = world.coordinator) :
    world.Advances next action := by
  obtain ⟨moved, queued'⟩ := queued.step there writers queue goes past other
  exact ⟨id, after, moved, queued', Or.inl line, .of_eq coordinator⟩

theorem commit_advances (queued : world.Queued) {record : Record}
    (stepped : world.step (.commit id record) = some next) :
    world.Advances next (.commit id record) := by
  unfold step at stepped
  dsimp only at stepped
  split at stepped
  · cases stepped
  · rename_i free
    cases stepped
    have absent : world.writers id = none := by
      by_contra there
      exact free (Or.inl (Option.isSome_iff_ne_none.mpr there))
    refine ⟨id, { record, phase := .reading }, .of_absent absent rfl, queued.moved rfl rfl ?_,
      Or.inl rfl, .of_eq rfl⟩
    intro before there
    rw [absent] at there
    cases there

/-- A writer that comes new to the end of the queue. -/
theorem Queued.enqueued (queued : world.Queued) (absent : world.writers id = none)
    (record : Record) : Queued { world.setWriter id { record, phase := .queued } with
      queue := world.queue ++ [id] } := by
  have new : id ∉ world.queue := by
    intro among
    obtain ⟨writer, there, -⟩ := queued.waits id among
    rw [absent] at there
    cases there
  refine ⟨?_, ?_⟩
  · exact List.nodup_append.mpr ⟨queued.nodup, List.nodup_singleton id, by
      rintro waiting among _ last rfl
      exact new (List.mem_singleton.mp last ▸ among)⟩
  · intro waiting among
    rcases List.mem_append.mp among with before | last
    · obtain ⟨writer, there, phase⟩ := queued.waits waiting before
      refine ⟨writer, ?_, phase⟩
      refine (Function.update_of_ne ?_ _ _).trans there
      rintro rfl
      exact new before
    · obtain rfl := List.mem_singleton.mp last
      exact ⟨_, Function.update_self _ _ _, rfl⟩

theorem enqueue_advances (queued : world.Queued) {record : Record}
    (stepped : world.step (.enqueue id record) = some next) :
    world.Advances next (.enqueue id record) := by
  unfold step at stepped
  dsimp only at stepped
  split at stepped
  · cases stepped
  · rename_i free
    cases stepped
    have absent : world.writers id = none := by
      by_contra there
      exact free (Or.inl (Option.isSome_iff_ne_none.mpr there))
    exact ⟨id, { record, phase := .queued }, .of_absent absent rfl, queued.enqueued absent record,
      Or.inl rfl, .of_eq rfl⟩

theorem receive_advances (queued : world.Queued) (stepped : world.step .receive = some next) :
    world.Advances next .receive := by
  unfold step at stepped
  dsimp only at stepped
  split at stepped
  · rename_i id queue waiting free
    obtain ⟨writer, there, rfl⟩ := Option.map_eq_some_iff.mp stepped
    have nodup := queued.nodup
    rw [waiting] at nodup
    obtain ⟨new, nodup⟩ := List.nodup_cons.mp nodup
    have queuedPhase : writer.phase = .queued := by
      obtain ⟨writer', there', phase⟩ := queued.waits id (by rw [waiting]; exact .head _)
      rw [there] at there'
      cases there'
      exact phase
    obtain ⟨after, writers, -, line, coordinator, rest⟩ :=
      receive_eq { world with queue } id writer
    refine ⟨id, after, ⟨writers, ?_⟩, ⟨?_, ?_⟩, Or.inl line, .of_eq coordinator⟩
    · intro before there'
      rw [there] at there'
      cases there'
      rw [queuedPhase]
      exact ⟨rfl, nofun⟩
    · rw [rest]
      exact nodup
    · intro other among
      rw [rest] at among
      obtain ⟨writer', there', phase⟩ :=
        queued.waits other (by rw [waiting]; exact .tail _ among)
      refine ⟨writer', ?_, phase⟩
      rw [writers, Function.update_of_ne]
      · exact there'
      · rintro rfl
        exact new among
  · cases stepped

theorem read_advances (queued : world.Queued) (stepped : world.step (.read id) = some next) :
    world.Advances next (.read id) := by
  obtain ⟨writer, there, stepped⟩ := Option.bind_eq_some_iff.mp stepped
  split at stepped
  · rename_i reading
    have goes (next : World) (after : Writer) :=
      @Queued.goes world next id (.read id) writer after queued there
    rw [reading] at goes
    split at stepped
    · rename_i entry chosen
      cases stepped
      exact goes (world.move id writer (.appending entry))
        { writer with phase := .appending entry } rfl rfl rfl nofun nofun rfl rfl
    · rename_i error refused
      cases stepped
      exact goes (world.fail id writer error)
        { writer with phase := .answered (.error error) } rfl rfl rfl nofun nofun rfl rfl
  · cases stepped

theorem append_advances (queued : world.Queued) (stepped : world.step (.append id) = some next) :
    world.Advances next (.append id) := by
  obtain ⟨writer, there, stepped⟩ := Option.bind_eq_some_iff.mp stepped
  split at stepped
  · rename_i entry appending
    cases stepped
    obtain ⟨after, writers, -, line, coordinator, queue⟩ := append_eq world id writer entry
    have goes := @Queued.goes world _ id (.append id) writer after queued there writers queue
    rw [appending] at goes
    exact goes rfl nofun nofun line coordinator
  · cases stepped

theorem put_advances (queued : world.Queued) (stepped : world.step (.put id) = some next) :
    world.Advances next (.put id) := by
  obtain ⟨writer, there, stepped⟩ := Option.bind_eq_some_iff.mp stepped
  split at stepped
  · rename_i entry append putting
    cases stepped
    obtain ⟨after, writers, past, line, coordinator, queue⟩ := put_eq world id writer entry append
    have goes := @Queued.step world _ id queued writer after there writers queue
    rw [putting] at goes
    obtain ⟨moved, queued'⟩ := goes rfl nofun nofun
    refine ⟨id, after, moved, queued', ?_, .of_eq coordinator⟩
    rcases line with line | line
    · exact Or.inl line
    · exact Or.inr ⟨id, writer, entry, append, rfl, there, putting, line⟩
  · cases stepped

theorem publish_advances (queued : world.Queued) (stepped : world.step (.publish id) = some next) :
    world.Advances next (.publish id) := by
  obtain ⟨writer, there, stepped⟩ := Option.bind_eq_some_iff.mp stepped
  split at stepped
  · rename_i entry append landed
    cases stepped
    obtain ⟨after, writers, past, line, coordinator, queue⟩ :=
      publish_eq world id writer entry append
    have goes := @Queued.goes world _ id (.publish id) writer after queued there writers queue
    rw [landed] at goes
    exact goes rfl (fun _ => past) nofun line coordinator
  · cases stepped

theorem finish_advances (queued : world.Queued) (stepped : world.step (.finish id) = some next) :
    world.Advances next (.finish id) := by
  obtain ⟨writer, there, stepped⟩ := Option.bind_eq_some_iff.mp stepped
  split at stepped
  · rename_i entry logged
    cases stepped
    have goes (next : World) (after : Writer) :=
      @Queued.step world next id queued writer after there
    rw [logged] at goes
    unfold finish
    split
    · rename_i error refused
      obtain ⟨moved, queued'⟩ := goes (world.fail id writer error)
        { writer with phase := .answered (.error error) } rfl rfl rfl (fun _ => rfl) nofun
      exact ⟨id, _, moved, queued', Or.inl rfl, .of_eq rfl⟩
    · rename_i after applied
      obtain ⟨writers, line, queue, coordinator⟩ := applied_eq_ok applied
      have writers' : Function.update after.writers id
          (some { writer with phase := .answered (.ok ()) }) = Function.update world.writers id
            (some { writer with phase := .answered (.ok ()) }) := by
        rw [writers]
      obtain ⟨moved, queued'⟩ := goes { after.move id writer (.answered (.ok ())) with
        serving := if after.serving = some id then none else after.serving }
        { writer with phase := .answered (.ok ()) } writers' queue rfl (fun _ => rfl) nofun
      refine ⟨id, _, moved, queued', Or.inl line, ?_⟩
      rcases coordinator with same | ⟨group, event, record, transitioned⟩
      · exact Or.inl same
      · exact Or.inr ⟨id, writer, entry, group, event, rfl, there, logged, record, transitioned⟩
  · cases stepped

theorem step_advances (queued : world.Queued) (stepped : world.step action = some next) :
    world.Advances next action := by
  cases action with
  | commit id record => exact commit_advances queued stepped
  | enqueue id record => exact enqueue_advances queued stepped
  | receive => exact receive_advances queued stepped
  | read id => exact read_advances queued stepped
  | append id => exact append_advances queued stepped
  | put id => exact put_advances queued stepped
  | publish id => exact publish_advances queued stepped
  | finish id => exact finish_advances queued stepped

end

end World

end Oqueue.GroupLog
