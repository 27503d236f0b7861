import Oqueue.Group.Sync

/-!
# What the barrier keeps to

The cell's generation never goes back, a map gives way only to a submission or to a
later generation's refusal, every answered slice is of the map that was accepted last
for its generation, and no follower that could be answered is left asleep.
-/

namespace Oqueue.SyncGroup

def lastSubmitted (generation : Int) (history : List Event) : Option AssignmentMap :=
  (history.filterMap fun event => match event with
    | .submitted request _ =>
      if request.generationId = generation then some (submittedMap request) else none
    | .answered _ _ => none).getLast?

variable {generation : Int} {history : List Event}

theorem lastSubmitted_answered (request : SyncGroupRequest) (response : SyncGroupResponse) :
    lastSubmitted generation (history ++ [.answered request response]) =
      lastSubmitted generation history := by
  simp [lastSubmitted]

theorem lastSubmitted_submitted (request : SyncGroupRequest) (record : Option GroupRecord) :
    lastSubmitted request.generationId (history ++ [.submitted request record]) =
      some (submittedMap request) := by
  simp [lastSubmitted]

/-- A member is answered, if at all, from the map accepted last for its generation. -/
def Sliced (history : List Event) : Prop :=
  ∀ before request response, before ++ [.answered request response] <+: history →
    response.errorCode = 0 → ∃ map, lastSubmitted request.generationId before = some map ∧
      response = responseFor map request

/-- Every accepted map found the group stable at its generation. -/
def Authorised (history : List Event) : Prop :=
  ∀ request record, .submitted request record ∈ history →
    isStableAt record request.generationId = true

theorem Sliced.answered {request : SyncGroupRequest} {response : SyncGroupResponse}
    (h : Sliced history) (slice : response.errorCode = 0 → ∃ map,
      lastSubmitted request.generationId history = some map ∧ response = responseFor map request) :
    Sliced (history ++ [.answered request response]) := by
  intro before request' response' inside success
  rcases List.prefix_concat_iff.mp inside with whole | earlier
  · obtain ⟨rfl, last⟩ := List.append_inj' whole rfl
    cases last
    exact slice success
  · exact h before request' response' earlier success

theorem Sliced.submitted {accepted : SyncGroupRequest} {record : Option GroupRecord}
    (h : Sliced history) : Sliced (history ++ [.submitted accepted record]) := by
  intro before request response inside success
  rcases List.prefix_concat_iff.mp inside with whole | earlier
  · obtain ⟨-, last⟩ := List.append_inj' whole rfl
    cases last
  · exact h before request response earlier success

theorem errorCode_refusal (refused : Refusal) : (refusal refused).errorCode ≠ 0 := by
  cases refused <;> decide

namespace World

/-- What a step does besides moving its own task, and whether it writes the cell. -/
inductive Moves (s : World) : Bool → World → Prop where
  | recorded (record : Option GroupRecord) : Moves s false { s with record }
  | refused (request : SyncGroupRequest) (code : Refusal) :
    Moves s false (s.answer request (refusal code))
  | told {request : SyncGroupRequest} {response : SyncGroupResponse}
    (told : s.told request = some response) : Moves s false (s.answer request response)
  | submitted (request : SyncGroupRequest)
    (still : isStableAt s.record request.generationId = true)
    (newest : ∀ held, s.cell = some held → held.generation ≤ request.generationId) :
    Moves s true (({ s with
      cell := some ⟨request.generationId, some (submittedMap request)⟩
      history := s.history ++ [.submitted request s.record] } : World).answer request
        (responseFor (submittedMap request) request))
  | withheld (generation : Int)
    (older : ∀ held, s.cell = some held →
      held.generation < generation ∨ (held.generation = generation ∧ held.map = none)) :
    Moves s true { s with cell := some ⟨generation, none⟩ }
  | withheldFrom (generation : Int) (request : SyncGroupRequest) (code : Refusal)
    (older : ∀ held, s.cell = some held →
      held.generation < generation ∨ (held.generation = generation ∧ held.map = none)) :
    Moves s true (({ s with cell := some ⟨generation, none⟩ } : World).answer request
      (refusal code))

/-- Nobody falls asleep before a cell that could answer it. -/
def Awake (s : World) (task : Option Task) : Prop :=
  ∀ request, task = some (.parked request false) →
    assignmentFor s.cell request.generationId = .waiting

/-- What a step does: whoever writes the cell goes on to wake the others. -/
inductive Effect (s : World) (action : Action) : World → Prop where
  | passing {w : World} (moves : Moves s false w) : Effect s action w
  | moving {id : Nat} {w : World} (task : Option Task) (own : action.concerns = some id)
    (quiet : s.tasks id ≠ some .waking) (awake : s.Awake task) (moves : Moves s false w) :
    Effect s action (w.setTask id task)
  | writing {id : Nat} {w : World} (own : action.concerns = some id)
    (quiet : s.tasks id ≠ some .waking) (moves : Moves s true w) :
    Effect s action (w.setTask id (some .waking))
  | waking {id : Nat} (own : action.concerns = some id) :
    Effect s action (s.notifyWaiters.setTask id none)

variable {s t : World} {id : Nat} {action : Action}

theorem Effect.set {task : Option Task} (own : action.concerns = some id)
    (quiet : s.tasks id ≠ some .waking) (awake : s.Awake task) :
    Effect s action (s.setTask id task) :=
  .moving task own quiet awake (.recorded s.record)

theorem transition_fst (s : World) (event : GroupEvent) :
    Moves s false (s.transition event).1 := by
  unfold World.transition
  split
  · exact .recorded _
  · exact .recorded s.record

theorem effect_completed (own : action.concerns = some id) (quiet : s.tasks id ≠ some .waking)
    (request : SyncGroupRequest) (answer : Except Error GroupRecord) :
    Effect s action (s.completed id request answer) := by
  unfold World.completed
  dsimp only
  split
  · split <;> exact .set own quiet nofun
  · split <;> exact .set own quiet nofun
  · exact .set own quiet nofun

theorem effect_submit (own : action.concerns = some id) (quiet : s.tasks id ≠ some .waking)
    (request : SyncGroupRequest) : Effect s action (s.submit id request) := by
  unfold World.submit
  rcases SyncGroups.submit_cases s.cell request.generationId (submittedMap request)
      (isStableAt s.record request.generationId) with turned | ⟨still, newest, taken⟩
  · rw [turned]
    exact .set own quiet nofun
  · rw [taken]
    exact .writing own quiet (.submitted request still newest)

theorem effect_refuse (own : action.concerns = some id) (quiet : s.tasks id ≠ some .waking)
    (generation : Int) (reply : Option (SyncGroupRequest × Refusal)) :
    Effect s action (s.refuse id generation reply) := by
  unfold World.refuse
  rcases SyncGroups.refuse_cases s.cell generation with ⟨kept, -⟩ | ⟨written, older⟩
  · rw [kept]
    cases reply with
    | none => exact .set own quiet nofun
    | some reply => exact .moving none own quiet nofun (.refused reply.1 reply.2)
  · rw [written]
    cases reply with
    | none => exact .writing own quiet (.withheld generation older)
    | some reply => exact .writing own quiet (.withheldFrom generation reply.1 reply.2 older)

theorem effect_resume (own : action.concerns = some id) {task : Task} (at_ : s.tasks id = some task)
    (stepped : s.resume id task = some t) : Effect s action t := by
  have quiet (different : task ≠ .waking) : s.tasks id ≠ some .waking := by
    rw [at_]
    exact fun same => different (Option.some_inj.mp same)
  cases task with
  | completing request => cases stepped
  | completed request answer =>
    cases stepped
    exact effect_completed own (quiet nofun) request answer
  | submitting request =>
    cases stepped
    exact effect_submit own (quiet nofun) request
  | refusing generation reply =>
    cases stepped
    exact effect_refuse own (quiet nofun) generation reply
  | waking =>
    cases stepped
    exact .waking own
  | arriving request =>
    cases stepped
    exact .set own (quiet nofun) nofun
  | armed request woken =>
    simp only [World.resume] at stepped
    split at stepped
    · rename_i response told
      cases stepped
      exact .moving none own (quiet nofun) nofun (.told told)
    · rename_i silent
      cases stepped
      refine .set own (quiet nofun) ?_
      intro request' same
      cases same
      unfold World.told at silent
      split at silent
      · cases silent
      · cases silent
      · cases silent
      · assumption
  | parked request woken =>
    simp only [World.resume] at stepped
    split at stepped
    · cases stepped
      exact .set own (quiet nofun) nofun
    · cases stepped

theorem effect_of_step (stepped : s.step action = some t) : Effect s action t := by
  cases action with
  | request id request memberTracked loadInProgress =>
    simp only [World.step] at stepped
    split at stepped
    · cases stepped
    · rename_i free
      cases stepped
      have quiet : s.tasks id ≠ some .waking := by
        intro waking
        simp [waking] at free
      unfold World.request
      split
      · exact .passing (.refused request _)
      · split <;> exact .set rfl quiet nofun
  | serve id lands =>
    simp only [World.step] at stepped
    split at stepped
    · rename_i request at_
      cases stepped
      cases lands with
      | true => exact .moving _ rfl (by simp [at_]) nofun (transition_fst s .syncComplete)
      | false => exact .set rfl (by simp [at_]) nofun
    · cases stepped
  | transition event =>
    cases stepped
    exact .passing (transition_fst s event)
  | refuse id generation =>
    simp only [World.step] at stepped
    split at stepped
    · cases stepped
    · rename_i free
      cases stepped
      have quiet : s.tasks id ≠ some .waking := by
        intro waking
        simp [waking] at free
      exact .set rfl quiet nofun
  | resume id =>
    obtain ⟨task, at_, stepped⟩ := Option.bind_eq_some_iff.mp stepped
    exact effect_resume rfl at_ stepped
  | deadline id =>
    simp only [World.step] at stepped
    split at stepped
    · rename_i request woken at_
      cases stepped
      have quiet : s.tasks id ≠ some .waking := by simp [at_]
      cases told : s.told request with
      | none => exact .moving none rfl quiet nofun (.refused request _)
      | some response => exact .moving none rfl quiet nofun (.told told)
    · cases stepped
  | drop id =>
    simp only [World.step] at stepped
    split at stepped
    · rename_i at_
      cases stepped
      exact .set rfl (by simp [at_]) nofun
    · rename_i at_
      cases stepped
      exact .set rfl (by simp [at_]) nofun
    · cases stepped

theorem tasks_setTask (s : World) (id other : Nat) (task : Option Task) :
    (s.setTask id task).tasks other = if other = id then task else s.tasks other := by
  simp [setTask, Function.update_apply]

theorem tasks_notifyWaiters (s : World) (id : Nat) :
    s.notifyWaiters.tasks id = (s.tasks id).map Task.wake := rfl

theorem Moves.tasks {wrote : Bool} {w : World} (h : Moves s wrote w) : w.tasks = s.tasks := by
  cases h <;> rfl

theorem Moves.extends {wrote : Bool} {w : World} (h : Moves s wrote w) :
    s.history <+: w.history := by
  cases h with
  | submitted request still newest =>
    simp only [World.answer, List.append_assoc]
    exact List.prefix_append ..
  | recorded record => exact List.prefix_rfl
  | withheld generation older => exact List.prefix_rfl
  | _ => exact List.prefix_append ..

theorem Moves.cell {w : World} (h : Moves s false w) : w.cell = s.cell := by
  cases h <;> rfl

theorem cell_step (stepped : s.step action = some t) :
    t.cell = s.cell ∨
      (∃ request, t.cell = some ⟨request.generationId, some (submittedMap request)⟩ ∧
        .submitted request s.record ∈ t.history ∧
        ∀ held, s.cell = some held → held.generation ≤ request.generationId) ∨
      ∃ generation, t.cell = some ⟨generation, none⟩ ∧ ∀ held, s.cell = some held →
        held.generation < generation ∨ (held.generation = generation ∧ held.map = none) := by
  cases effect_of_step stepped with
  | passing moves => exact .inl moves.cell
  | moving task own quiet awake moves => exact .inl moves.cell
  | waking own => exact .inl rfl
  | writing own quiet moves =>
    cases moves with
    | submitted request still newest =>
      exact .inr (.inl ⟨request, rfl, by simp [World.setTask, World.answer], newest⟩)
    | withheld generation older => exact .inr (.inr ⟨generation, rfl, older⟩)
    | withheldFrom generation request code older => exact .inr (.inr ⟨generation, rfl, older⟩)

theorem history_step (stepped : s.step action = some t) : s.history <+: t.history := by
  cases effect_of_step stepped with
  | passing moves => exact moves.extends
  | moving task own quiet awake moves => exact moves.extends
  | writing own quiet moves => exact moves.extends
  | waking own => exact List.prefix_rfl

theorem tasks_step (stepped : s.step action = some t) (elsewhere : action.concerns ≠ some id) :
    t.tasks id = s.tasks id ∨ t.tasks id = (s.tasks id).map Task.wake := by
  have different {other : Nat} (own : action.concerns = some other) : id ≠ other :=
    fun same => elsewhere (same ▸ own)
  cases effect_of_step stepped with
  | passing moves =>
    left
    rw [moves.tasks]
  | moving task own quiet awake moves =>
    left
    rw [tasks_setTask, if_neg (different own), moves.tasks]
  | writing own quiet moves =>
    left
    rw [tasks_setTask, if_neg (different own), moves.tasks]
  | waking own =>
    right
    rw [tasks_setTask, if_neg (different own), tasks_notifyWaiters]

structure Sound (s : World) : Prop where
  held : ∀ generation map, s.cell = some ⟨generation, some map⟩ →
    lastSubmitted generation s.history = some map
  authorised : Authorised s.history
  sliced : Sliced s.history
  /-- A follower sleeps past a cell it could be answered from only until its writer wakes it. -/
  woken : ∀ id request, s.tasks id = some (.parked request false) →
    assignmentFor s.cell request.generationId ≠ .waiting → ∃ writer, s.tasks writer = some .waking

theorem Authorised.answered {history : List Event} (h : Authorised history)
    (request : SyncGroupRequest) (response : SyncGroupResponse) :
    Authorised (history ++ [.answered request response]) := by
  intro accepted record at_
  rcases List.mem_append.mp at_ with old | new
  · exact h accepted record old
  · cases List.mem_singleton.mp new

theorem Sound.slice (h : s.Sound) {request : SyncGroupRequest} {response : SyncGroupResponse}
    (told : s.told request = some response) (success : response.errorCode = 0) :
    ∃ map, lastSubmitted request.generationId s.history = some map ∧
      response = responseFor map request := by
  unfold World.told at told
  split at told
  · rename_i map mine
    cases told
    exact ⟨map, h.held _ map (assignmentFor_eq_mine.mp mine), rfl⟩
  · cases told
    exact absurd success (errorCode_refusal _)
  · cases told
    exact absurd success (errorCode_refusal _)
  · cases told

/-- What a step writes keeps to the maps that were accepted. -/
theorem Sound.moves (h : s.Sound) {wrote : Bool} {w : World} (moves : Moves s wrote w) :
    (∀ generation map, w.cell = some ⟨generation, some map⟩ →
      lastSubmitted generation w.history = some map) ∧ Authorised w.history ∧ Sliced w.history := by
  cases moves with
  | recorded record => exact ⟨h.held, h.authorised, h.sliced⟩
  | refused request code =>
    refine ⟨?_, Authorised.answered h.authorised request _, ?_⟩
    · intro generation map at_
      exact (lastSubmitted_answered request _).trans (h.held generation map at_)
    · exact h.sliced.answered fun success => absurd success (errorCode_refusal code)
  | told told =>
    refine ⟨?_, Authorised.answered h.authorised _ _, h.sliced.answered (h.slice told)⟩
    intro generation map at_
    exact (lastSubmitted_answered _ _).trans (h.held generation map at_)
  | submitted request still newest =>
    refine ⟨?_, Authorised.answered ?_ request _, ?_⟩
    · intro generation map at_
      cases at_
      exact (lastSubmitted_answered request _).trans (lastSubmitted_submitted request s.record)
    · intro accepted record at_
      rcases List.mem_append.mp at_ with old | new
      · exact h.authorised accepted record old
      · cases List.mem_singleton.mp new
        exact still
    · apply h.sliced.submitted.answered
      intro success
      exact ⟨_, lastSubmitted_submitted request s.record, rfl⟩
  | withheld generation older => exact ⟨nofun, h.authorised, h.sliced⟩
  | withheldFrom generation request code older =>
    refine ⟨nofun, Authorised.answered h.authorised request _, ?_⟩
    exact h.sliced.answered fun success => absurd success (errorCode_refusal code)

theorem step_sound (h : s.Sound) (stepped : s.step action = some t) : t.Sound := by
  cases effect_of_step stepped with
  | passing moves =>
    obtain ⟨held, authorised, sliced⟩ := h.moves moves
    refine ⟨held, authorised, sliced, ?_⟩
    rw [moves.tasks, moves.cell]
    exact h.woken
  | @moving id w task own quiet awake moves =>
    obtain ⟨held, authorised, sliced⟩ := h.moves moves
    refine ⟨held, authorised, sliced, ?_⟩
    intro other request parked published
    rw [tasks_setTask, moves.tasks] at parked
    have published : assignmentFor s.cell request.generationId ≠ .waiting := by
      rw [← moves.cell]
      exact published
    split at parked
    · exact absurd (awake request parked) published
    · obtain ⟨writer, waking⟩ := h.woken other request parked published
      have different : writer ≠ id := fun same => quiet (same ▸ waking)
      exact ⟨writer, by rw [tasks_setTask, if_neg different, moves.tasks, waking]⟩
  | @writing id w own quiet moves =>
    obtain ⟨held, authorised, sliced⟩ := h.moves moves
    refine ⟨held, authorised, sliced, ?_⟩
    intro other request parked published
    exact ⟨id, by rw [tasks_setTask, if_pos rfl]⟩
  | waking own =>
    refine ⟨h.held, h.authorised, h.sliced, ?_⟩
    intro other request parked published
    rw [tasks_setTask, tasks_notifyWaiters] at parked
    split at parked
    · cases parked
    · obtain ⟨task, at_, woken⟩ := Option.map_eq_some_iff.mp parked
      cases task <;> cases woken

theorem sound_of_run {actions : List Action} {record : Option GroupRecord}
    (ran : Steps.run World.step { record } actions = some s) : s.Sound := by
  refine Steps.run_invariant World.Sound (fun _ _ _ => step_sound) ?_ ran
  refine ⟨by simp, by simp [Authorised], ?_, by simp⟩
  intro before request response inside
  simp at inside

/-- The follower is registered for a generation the cell has something to say about. -/
structure Waits (s : World) (id : Nat) (request : SyncGroupRequest) : Prop where
  registered : (∃ woken, s.tasks id = some (.parked request woken)) ∨
    ∃ woken, s.tasks id = some (.armed request woken)
  published : assignmentFor s.cell request.generationId ≠ .waiting

end World

/-- How many steps a follower is from its answer, once there is one. -/
def Task.distance : Option Task → Nat
  | some (.parked _ false) => 3
  | some (.parked _ true) => 2
  | some (.armed _ _) => 1
  | _ => 0

theorem Task.distance_wake (task : Option Task) :
    Task.distance (task.map Task.wake) ≤ Task.distance task := by
  rcases task with - | task
  · exact le_refl _
  · cases task with
    | parked request woken => cases woken <;> simp [Task.distance, Task.wake]
    | _ => exact le_refl _

namespace World

variable {s t : World} {id : Nat} {action : Action} {request : SyncGroupRequest}

theorem published_step (stepped : s.step action = some t) {generation : Int}
    (published : assignmentFor s.cell generation ≠ .waiting) :
    assignmentFor t.cell generation ≠ .waiting := by
  obtain ⟨held, at_, le⟩ := assignmentFor_ne_waiting.mp published
  apply assignmentFor_ne_waiting.mpr
  rcases cell_step stepped with same | ⟨request, taken, -, newest⟩ | ⟨refused, taken, older⟩
  · exact ⟨held, same.trans at_, le⟩
  · exact ⟨_, taken, le.trans (newest held at_)⟩
  · refine ⟨_, taken, le.trans ?_⟩
    rcases older held at_ with lt | ⟨eq, -⟩
    · exact lt.le
    · exact eq.le

theorem exists_told (published : assignmentFor s.cell request.generationId ≠ .waiting) :
    ∃ response, s.told request = some response := by
  unfold World.told
  split
  · exact ⟨_, rfl⟩
  · exact ⟨_, rfl⟩
  · exact ⟨_, rfl⟩
  · contradiction

theorem Waits.resume (h : s.Waits id request) (stepped : s.step (.resume id) = some t) :
    (∃ response, t.history = s.history ++ [.answered request response]) ∨
      (t.Waits id request ∧ Task.distance (t.tasks id) < Task.distance (s.tasks id)) := by
  have published := published_step stepped h.published
  rcases h.registered with ⟨woken, at_⟩ | ⟨woken, at_⟩
  · simp only [World.step, at_, Option.bind_eq_bind, Option.bind_some, World.resume] at stepped
    split at stepped
    · rename_i woken
      cases stepped
      refine .inr ⟨⟨.inr ⟨false, by rw [tasks_setTask, if_pos rfl]⟩, published⟩, ?_⟩
      rw [tasks_setTask, if_pos rfl, at_, woken]
      simp [Task.distance]
    · cases stepped
  · obtain ⟨response, told⟩ := exists_told h.published
    simp only [World.step, at_, Option.bind_eq_bind, Option.bind_some, World.resume, told] at stepped
    cases stepped
    exact .inl ⟨response, rfl⟩

/-- No step takes a follower away from its answer, unless it is its deadline's or its end. -/
theorem Waits.step (h : s.Waits id request) (stepped : s.step action = some t)
    (timely : action ≠ .deadline id) (there : action ≠ .drop id) :
    (∃ response, t.history = s.history ++ [.answered request response]) ∨
      (t.Waits id request ∧ Task.distance (t.tasks id) ≤ Task.distance (s.tasks id)) := by
  have published := published_step stepped h.published
  have occupied : (s.tasks id).isSome := by
    rcases h.registered with ⟨woken, at_⟩ | ⟨woken, at_⟩ <;> simp [at_]
  by_cases own : action.concerns = some id
  · cases action with
    | request other request' memberTracked loadInProgress =>
      cases own
      simp [World.step, occupied] at stepped
    | serve other lands =>
      cases own
      rcases h.registered with ⟨woken, at_⟩ | ⟨woken, at_⟩ <;> simp [World.step, at_] at stepped
    | transition event => cases own
    | refuse other generation =>
      cases own
      simp [World.step, occupied] at stepped
    | resume other =>
      cases own
      exact (h.resume stepped).imp_right fun nearer => ⟨nearer.1, nearer.2.le⟩
    | deadline other =>
      cases own
      exact absurd rfl timely
    | drop other =>
      cases own
      exact absurd rfl there
  · right
    rcases tasks_step stepped own with same | woken
    · exact ⟨⟨by rw [same]; exact h.registered, published⟩, same ▸ le_refl _⟩
    · refine ⟨⟨?_, published⟩, woken ▸ Task.distance_wake _⟩
      rw [woken]
      rcases h.registered with ⟨woken, at_⟩ | ⟨woken, at_⟩
      · exact .inl ⟨true, by rw [at_]; rfl⟩
      · exact .inr ⟨true, by rw [at_]; rfl⟩

/-- A step that is not its deadline's brings a follower nearer to its answer. -/
theorem Waits.progress (sound : s.Sound) (h : s.Waits id request) :
    ∃ resumed t, s.step (.resume resumed) = some t ∧
      Task.distance (t.tasks id) < Task.distance (s.tasks id) := by
  rcases h.registered with ⟨woken, at_⟩ | ⟨woken, at_⟩
  · cases woken with
    | false =>
      obtain ⟨writer, waking⟩ := sound.woken id request at_ h.published
      have different : id ≠ writer := by
        intro same
        rw [same, waking] at at_
        cases at_
      refine ⟨writer, s.notifyWaiters.setTask writer none, by simp [World.step, waking, World.resume], ?_⟩
      rw [tasks_setTask, if_neg different, tasks_notifyWaiters, at_]
      simp [Task.distance, Task.wake]
    | true =>
      refine ⟨id, s.setTask id (some (.armed request false)),
        by simp [World.step, at_, World.resume], ?_⟩
      rw [tasks_setTask, if_pos rfl, at_]
      simp [Task.distance]
  · obtain ⟨response, told⟩ := exists_told h.published
    refine ⟨id, (s.answer request response).setTask id none,
      by simp [World.step, at_, World.resume, told], ?_⟩
    rw [tasks_setTask, if_pos rfl, at_]
    simp [Task.distance]

/-- Until its answer comes a follower stays on its way to it. -/
theorem Waits.run (h : s.Waits id request) {actions : List Action}
    (ran : Steps.run World.step s actions = some t) (timely : .deadline id ∉ actions)
    (there : .drop id ∉ actions) :
    (∃ new response, t.history = s.history ++ new ∧ .answered request response ∈ new) ∨
      (t.Waits id request ∧ Task.distance (t.tasks id) ≤ Task.distance (s.tasks id)) := by
  induction actions generalizing s with
  | nil =>
    cases ran
    exact .inr ⟨h, le_refl _⟩
  | cons action rest ih =>
    obtain ⟨mid, stepped, ran⟩ := Steps.run_cons.mp ran
    rw [List.mem_cons, not_or] at timely there
    rcases h.step stepped (Ne.symm timely.1) (Ne.symm there.1) with ⟨response, answered⟩ | ⟨waits, le⟩
    · left
      have kept : mid.history <+: t.history :=
        Steps.run_invariant (fun w => mid.history <+: w.history)
          (fun _ _ _ before step => before.trans (history_step step)) List.prefix_rfl ran
      obtain ⟨later, whole⟩ := kept
      refine ⟨[.answered request response] ++ later, response, ?_, by simp⟩
      rw [← whole, answered, List.append_assoc]
    · rcases ih waits ran timely.2 there.2 with ⟨new, response, whole, answered⟩ | ⟨waits, le'⟩
      · left
        obtain ⟨step, grown⟩ := history_step stepped
        refine ⟨step ++ new, response, ?_, List.mem_append_right _ answered⟩
        rw [whole, ← grown, List.append_assoc]
      · exact .inr ⟨waits, le'.trans le⟩

theorem mem_of_lastSubmitted {generation : Int} {history : List Event} {map : AssignmentMap}
    (h : lastSubmitted generation history = some map) : ∃ request record,
      .submitted request record ∈ history ∧ request.generationId = generation ∧
        submittedMap request = map := by
  obtain ⟨event, inside, is_⟩ := List.mem_filterMap.mp (List.mem_of_getLast? h)
  cases event with
  | submitted request record =>
    simp only [Option.ite_none_right_eq_some, Option.some.injEq] at is_
    exact ⟨request, record, inside, is_.1, is_.2⟩
  | answered request response => cases is_

theorem Sound.answered (h : s.Sound) {response : SyncGroupResponse}
    (answered : .answered request response ∈ s.history) (success : response.errorCode = 0) :
    ∃ submission record, .submitted submission record ∈ s.history ∧
      submission.generationId = request.generationId ∧
      isStableAt record request.generationId = true ∧
      response = responseFor (submittedMap submission) request := by
  obtain ⟨before, after, split⟩ := List.append_of_mem answered
  have inside : before ++ [.answered request response] <+: s.history :=
    ⟨after, by rw [split, List.append_assoc, List.singleton_append]⟩
  obtain ⟨map, last, slice⟩ := h.sliced before request response inside success
  obtain ⟨submission, record, accepted, same, rfl⟩ := mem_of_lastSubmitted last
  have accepted : .submitted submission record ∈ s.history := by
    rw [split]
    exact List.mem_append_left _ accepted
  exact ⟨submission, record, accepted, same, same ▸ h.authorised submission record accepted, slice⟩

end World

/-- The cell never goes back and gives up a map only to a submission or to a later
generation's refusal; every slice is of a map accepted while the group was stable at the
generation it was asked for; and a follower that could be answered is, before its
deadline: until then there is always a step that brings it nearer, and none takes it away. -/
theorem barrier_safe {actions : List Action} {record : Option GroupRecord} {s : World}
    (ran : Steps.run World.step { record } actions = some s) :
    (∀ action t, s.step action = some t → ∀ held, s.cell = some held → ∃ held',
      t.cell = some held' ∧ held.generation ≤ held'.generation ∧
        (held.map ≠ none → held' = held ∨
          (∃ submission, .submitted submission s.record ∈ t.history ∧
            held' = ⟨submission.generationId, some (submittedMap submission)⟩) ∨
          (held'.map = none ∧ held.generation < held'.generation))) ∧
    (∀ request response, .answered request response ∈ s.history → response.errorCode = 0 →
      ∃ submission record, .submitted submission record ∈ s.history ∧
        submission.generationId = request.generationId ∧
        isStableAt record request.generationId = true ∧
        response = responseFor (submittedMap submission) request) ∧
    ∀ id request woken, s.tasks id = some (.parked request woken) →
      assignmentFor s.cell request.generationId ≠ .waiting →
      ∀ rest t, Steps.run World.step s rest = some t → .deadline id ∉ rest → .drop id ∉ rest →
        (∃ new response, t.history = s.history ++ new ∧ .answered request response ∈ new) ∨
        (Task.distance (t.tasks id) ≤ Task.distance (s.tasks id) ∧
          ∃ resumed u, t.step (.resume resumed) = some u ∧
            Task.distance (u.tasks id) < Task.distance (t.tasks id)) := by
  have sound := World.sound_of_run ran
  refine ⟨?_, fun request response => sound.answered, ?_⟩
  · intro action t stepped held at_
    rcases World.cell_step stepped with same | ⟨submission, taken, accepted, newest⟩ |
      ⟨generation, taken, older⟩
    · exact ⟨held, same.trans at_, le_refl _, fun _ => .inl rfl⟩
    · exact ⟨_, taken, newest held at_, fun _ => .inr (.inl ⟨submission, accepted, rfl⟩)⟩
    · rcases older held at_ with lt | ⟨eq, refused⟩
      · exact ⟨_, taken, lt.le, fun _ => .inr (.inr ⟨rfl, lt⟩)⟩
      · exact ⟨_, taken, eq.le, fun published => absurd refused published⟩
  · intro id request woken at_ published rest t ran' timely there
    have waits : s.Waits id request := ⟨.inl ⟨woken, at_⟩, published⟩
    rcases waits.run ran' timely there with answered | ⟨waits, le⟩
    · exact .inl answered
    · have sound' := Steps.run_invariant World.Sound (fun _ _ _ => World.step_sound) sound ran'
      exact .inr ⟨le, waits.progress sound'⟩

/-- A follower parks, its leader submits, and the follower is still to be woken. -/
def published : List Action :=
  [.transition .join, .transition .joinBarrierComplete,
    .request 0 ⟨5, "b", 1, none, none, []⟩ true false, .resume 0, .resume 0,
    .request 1 ⟨5, "a", 1, none, none, [("a", [0]), ("b", [1])]⟩ true false, .serve 1 true,
    .resume 1, .resume 1]

theorem barrier_safe_published : ∃ s, Steps.run World.step {} published = some s ∧
    (∀ action t, s.step action = some t → ∀ held, s.cell = some held → ∃ held',
      t.cell = some held' ∧ held.generation ≤ held'.generation ∧
        (held.map ≠ none → held' = held ∨
          (∃ submission, .submitted submission s.record ∈ t.history ∧
            held' = ⟨submission.generationId, some (submittedMap submission)⟩) ∨
          (held'.map = none ∧ held.generation < held'.generation))) ∧
    (∃ submission record, .submitted submission record ∈ s.history ∧
      submission.generationId = 1 ∧ isStableAt record 1 = true) ∧
    s.tasks 0 = some (.parked ⟨5, "b", 1, none, none, []⟩ false) ∧
    ∀ rest t, Steps.run World.step s rest = some t → .deadline 0 ∉ rest → .drop 0 ∉ rest →
      (∃ new response, t.history = s.history ++ new ∧
        .answered ⟨5, "b", 1, none, none, []⟩ response ∈ new) ∨
      (Task.distance (t.tasks 0) ≤ Task.distance (s.tasks 0) ∧
        ∃ resumed u, t.step (.resume resumed) = some u ∧
          Task.distance (u.tasks 0) < Task.distance (t.tasks 0)) := by
  obtain ⟨s, ran, cell, parked, answered⟩ : ∃ s, Steps.run World.step {} published = some s ∧
      s.cell = some ⟨1, some (submittedMap
        ⟨5, "a", 1, none, none, [("a", [0]), ("b", [1])]⟩)⟩ ∧
      s.tasks 0 = some (.parked ⟨5, "b", 1, none, none, []⟩ false) ∧
      .answered ⟨5, "a", 1, none, none, [("a", [0]), ("b", [1])]⟩ ⟨0, none, none, [0]⟩ ∈
        s.history :=
    ⟨_, rfl, rfl, rfl, List.mem_cons_of_mem _ (List.mem_cons_self ..)⟩
  obtain ⟨safe, slices, wakes⟩ := barrier_safe ran
  obtain ⟨submission, record, accepted, same, stable, -⟩ := slices _ _ answered rfl
  refine ⟨s, ran, safe, ⟨submission, record, accepted, same, stable⟩, parked, ?_⟩
  apply wakes 0 _ false parked
  rw [cell]
  decide

/-- Two members of one generation submit, one after the other: the second replaces what the
first was answered from. -/
def submittedTwice : List Action :=
  [.transition .join, .transition .joinBarrierComplete,
    .request 0 ⟨5, "a", 1, none, none, [("a", [0]), ("b", [1])]⟩ true false, .serve 0 true,
    .resume 0, .resume 0, .resume 0,
    .request 1 ⟨5, "b", 1, none, none, [("a", [1]), ("b", [0])]⟩ true false, .serve 1 true,
    .resume 1, .resume 1, .resume 1,
    .request 0 ⟨5, "a", 1, none, none, []⟩ true false, .resume 0, .resume 0]

/-- The answers to one generation need not be slices of one map. -/
theorem answered_from_two_maps : ¬ ∀ actions record s,
    Steps.run World.step { record } actions = some s → ∀ generation, ∃ map : AssignmentMap,
      ∀ request response, .answered request response ∈ s.history →
        request.generationId = generation → response.errorCode = 0 →
        response = responseFor map request := by
  intro claim
  obtain ⟨s, ran, first, last⟩ : ∃ s, Steps.run World.step {} submittedTwice = some s ∧
      .answered ⟨5, "a", 1, none, none, [("a", [0]), ("b", [1])]⟩ ⟨0, none, none, [0]⟩ ∈
        s.history ∧
      .answered ⟨5, "a", 1, none, none, []⟩ ⟨0, none, none, [1]⟩ ∈ s.history :=
    ⟨_, rfl, List.mem_cons_of_mem _ (List.mem_cons_self ..), List.mem_of_getLast? rfl⟩
  obtain ⟨map, one⟩ := claim submittedTwice none s ran 1
  have zero := one _ _ first rfl rfl
  have other := one _ _ last rfl rfl
  simp only [responseFor, SyncGroupResponse.mk.injEq] at zero other
  exact absurd (zero.2.2.2.trans other.2.2.2.symm) (by decide)

/-- Every answered slice is of the map accepted last for its generation: of one map
throughout, as long as every accepted submission of the generation carries the same. -/
theorem answered_from_last_submission {actions : List Action} {record : Option GroupRecord}
    {s : World} (ran : Steps.run World.step { record } actions = some s) :
    (∀ before request response, before ++ [.answered request response] <+: s.history →
      response.errorCode = 0 → ∃ map, lastSubmitted request.generationId before = some map ∧
        response = responseFor map request) ∧
    ∀ generation map, (∀ submission record, .submitted submission record ∈ s.history →
        submission.generationId = generation → submittedMap submission = map) →
      ∀ request response, .answered request response ∈ s.history →
        request.generationId = generation → response.errorCode = 0 →
        response = responseFor map request := by
  have sound := World.sound_of_run ran
  refine ⟨sound.sliced, ?_⟩
  intro generation map agreed request response answered same success
  obtain ⟨submission, record, accepted, at_, -, slice⟩ := sound.answered answered success
  rw [slice, agreed submission record accepted (at_.trans same)]

theorem answered_from_last_submission_twice : ∃ s,
    Steps.run World.step {} submittedTwice = some s ∧
    ∃ before map, lastSubmitted 1 before = some map ∧
      before ++ [.answered ⟨5, "a", 1, none, none, []⟩ ⟨0, none, none, [1]⟩] <+: s.history ∧
      responseFor map ⟨5, "a", 1, none, none, []⟩ = ⟨0, none, none, [1]⟩ := by
  obtain ⟨s, ran, before, inside⟩ : ∃ s, Steps.run World.step {} submittedTwice = some s ∧
      ∃ before, before ++ [.answered ⟨5, "a", 1, none, none, []⟩ ⟨0, none, none, [1]⟩] =
        s.history :=
    ⟨_, rfl, [_, _, _, _], rfl⟩
  have whole : before ++ [.answered ⟨5, "a", 1, none, none, []⟩ ⟨0, none, none, [1]⟩] <+:
      s.history := ⟨[], by rw [List.append_nil, inside]⟩
  obtain ⟨map, last, slice⟩ := (answered_from_last_submission ran).1 before _ _ whole rfl
  exact ⟨s, ran, before, map, last, whole, slice.symm⟩

end Oqueue.SyncGroup
