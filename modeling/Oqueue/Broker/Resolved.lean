import Oqueue.Broker.Resolution

/-!
# What a node's resolutions find

Whatever the order of steps, no resolution finds a topic whose deletion was answered before
it started. That every topic that is there is found takes more: between the step that loads
the count and the one that remembers the entry, no other call may take anything out.
-/

namespace Oqueue.Broker.Topics

open Shared

section Worlds

variable {world next : World} {i : Nat}

/-- What holds of every state that is reached. -/
structure World.Kept (world : World) : Prop where
  shared : world.shared.Kept
  fits : ∀ i task, world.tasks i = some task → task.Fits world.shared
  sound : ∀ answer ∈ world.answers, answer.Sound

/-- What holds besides while every step is clear. -/
structure World.Steady (world : World) : Prop where
  distinct : world.shared.Distinct
  steady : ∀ i task, world.tasks i = some task → task.Steady world.shared
  complete : ∀ answer ∈ world.answers, answer.Complete

/-- What a step of one call leaves, that takes this name at most out of the cache; `clear`
stands for what a clear step needs of the call. -/
structure Progress (world next : World) (i : Nat) (forgotten : Option String) (clear : Prop) :
    Prop where
  kept : next.shared.Kept
  moves : world.shared.Moves next.shared forgotten
  distinct : clear → next.shared.Distinct
  others : ∀ j ≠ i, next.tasks j = world.tasks j
  own : ∀ task, next.tasks i = some task → task.Fits next.shared ∧ (clear → task.Steady next.shared)
  answers : ∀ answer ∈ next.answers, answer ∈ world.answers ∨
    (answer.Sound ∧ (clear → answer.Complete))

theorem Progress.kept_next {forgotten : Option String} {clear : Prop}
    (progress : Progress world next i forgotten clear) (kept : world.Kept) : next.Kept where
  shared := progress.kept
  fits := by
    intro j task there
    by_cases same : j = i
    · rw [same] at there
      exact (progress.own task there).1
    · rw [progress.others j same] at there
      exact (kept.fits j task there).later progress.moves
  sound := by
    intro answer among
    rcases progress.answers answer among with before | ⟨sound, -⟩
    · exact kept.sound answer before
    · exact sound

theorem Progress.steady_next {forgotten : Option String} {clear : Prop}
    (progress : Progress world next i forgotten clear) (kept : world.Kept)
    (safe : ∀ name, forgotten = some name → ∀ j other, world.tasks j = some other →
      ¬ other.Exposed world.shared name)
    (cleared : clear) (steady : world.Steady) : next.Steady where
  distinct := progress.distinct cleared
  steady := by
    intro j task there
    by_cases same : j = i
    · rw [same] at there
      exact (progress.own task there).2 cleared
    · rw [progress.others j same] at there
      exact (steady.steady j task there).later kept.shared progress.moves (kept.fits j task there)
        fun name forgets => safe name forgets j task there
  complete := by
    intro answer among
    rcases progress.answers answer among with before | ⟨-, complete⟩
    · exact steady.complete answer before
    · exact complete cleared

theorem World.call_serves (kept : world.shared.Kept) (topic : String) :
    (world.call topic).Serves world.shared topic where
  started := {
    gone := fun _ gone => gone
    existed := by
      intro entry existed
      rw [kept.lawful.named _ _ existed]
      exact kept.live _ _ existed }
  existed := fun entry existed => kept.lawful.named _ _ existed
  fits := trivial

theorem World.call_steady (world : World) (shared : Shared) (topic : String) (must : Bool) :
    (world.call topic).Steady shared topic must :=
  fun _ => trivial

/-- What a clear step needs of the resolution it is a step of. -/
def Call.Clear (call : Call Serving) (shared : Shared) (topic : String) (must : Bool) : Prop :=
  call.Steady shared topic must ∧ (must = true → ∀ generation, call.phase = .loaded generation →
    (shared.exists_ topic).isSome)

/-- What a step of a resolution by name comes to, with what it answers. -/
theorem World.serve_spec (kept : world.shared.Kept) {topic : String} {call : Call Serving}
    (serves : call.Serves world.shared topic) (must : Bool)
    (created : must = true → ∃ entry, world.shared.created.lookup ⟨topic⟩ = some entry)
    (clear : Prop) (cleared : clear → call.Clear world.shared topic must) :
    let after := (world.serve topic call).1
    after.shared.Kept ∧ world.shared.Moves after.shared (call.phase.forgets topic) ∧
      after.shared.created = world.shared.created ∧ after.tasks = world.tasks ∧
      (∀ answer ∈ after.answers, answer ∈ world.answers ∨
        (answer.Sound ∧ (clear → answer.Complete))) ∧
      match (world.serve topic call).2 with
      | .goes later => later.Serves after.shared topic ∧
        (clear → later.Steady after.shared topic must)
      | .answers result => (∀ hit, result = some hit →
          ∃ entry, after.shared.created.lookup ⟨topic⟩ = some entry ∧ hit.Of entry) ∧
        (clear → must = true → result.isSome) := by
  obtain ⟨kept', moves⟩ := Shared.serve_moves kept serves.fits
  have turned := Shared.serve_turn kept serves.fits
  have created' := world.shared.serve_created topic call.phase
  -- what the resolution is to find was created
  have wanted (due : call.Due world.shared topic must) :
      ∃ entry, world.shared.created.lookup ⟨topic⟩ = some entry := by
    rcases due with must | ⟨entry, existed, -⟩
    · exact created must
    · rw [← serves.existed entry existed]
      exact ⟨entry, serves.started.existed entry existed⟩
  have there (due : call.Due world.shared topic must) (clear : call.Clear world.shared topic must)
      (generation : Nat) (loaded : call.phase = .loaded generation) :
      (world.shared.exists_ topic).isSome := by
    rcases due with must | ⟨entry, -, live⟩
    · exact clear.2 must generation loaded
    · rw [live]
      rfl
  unfold World.serve
  cases stepped : (world.shared.serve topic call.phase) with
  | mk after turn =>
    rw [stepped] at kept' moves turned created'
    dsimp only at kept' moves turned created' ⊢
    cases turn with
    | goes phase =>
      refine ⟨kept', moves, created', rfl, fun _ among => Or.inl among, ?_, ?_⟩
      · exact ⟨⟨(serves.started.later moves).gone, (serves.started.later moves).existed⟩,
          serves.existed, turned.1⟩
      · intro clear due
        refine turned.2 ((cleared clear).1 ?_)
        exact Call.Due.earlier kept moves serves due
    | answers result =>
      obtain ⟨found, same, some_⟩ := turned
      refine ⟨kept', moves, created', rfl, ?_, ?_, ?_⟩
      · intro answer among
        rcases List.mem_append.mp among with before | now
        · exact Or.inl before
        · obtain rfl := List.mem_singleton.mp now
          refine Or.inr ⟨?_, ?_⟩
          · intro isSome gone
            obtain ⟨hit, held⟩ := Option.isSome_iff_exists.mp isSome
            exact kept.notMem_gone (found hit held).1 (serves.started.gone _ gone)
          · intro clear entry existed live
            rw [same] at live
            have due : call.Due world.shared topic must := Or.inr ⟨entry, existed, live⟩
            have isSome := some_ ((cleared clear).1 due) (wanted due) (there due (cleared clear))
            obtain ⟨hit, held⟩ := Option.isSome_iff_exists.mp isSome
            obtain ⟨-, entry', made, of⟩ := found hit held
            rw [kept.live _ _ live] at made
            cases made
            exact ⟨hit, held, of⟩
      · intro hit held
        have entered := (found hit held).2
        rw [← created'] at entered
        exact entered
      · intro clear must
        have due : call.Due world.shared topic _ := Or.inl must
        exact some_ ((cleared clear).1 due) (wanted due) (there due (cleared clear))

/-- What a clear step needs of the call whose step it is. -/
structure Task.Clear (task : Task) (shared : Shared) : Prop where
  distinct : shared.Distinct
  steady : task.Steady shared
  there : ∀ topic call generation, task.resolution = some (topic, call, true) →
    call.phase = .loaded generation → (shared.exists_ topic).isSome
  unshared : ∀ name, task.creates = some name → shared.Unshared name

theorem Shared.Distinct.congr {shared after : Shared} (same : after.created = shared.created)
    (distinct : shared.Distinct) : after.Distinct := by
  unfold Distinct
  rw [same]
  exact distinct

theorem Progress.setTask (after : World) {forgotten : Option String} {clear : Prop}
    (kept : after.shared.Kept) (moves : world.shared.Moves after.shared forgotten)
    (distinct : clear → after.shared.Distinct) (tasks : after.tasks = world.tasks)
    (answers : ∀ answer ∈ after.answers, answer ∈ world.answers ∨
      (answer.Sound ∧ (clear → answer.Complete))) {task : Option Task}
    (own : ∀ own, task = some own → own.Fits after.shared ∧ (clear → own.Steady after.shared)) :
    Progress world (after.setTask i task) i forgotten clear where
  kept := kept
  moves := moves
  distinct := distinct
  others := by
    intro j other
    refine (Function.update_of_ne other _ _).trans ?_
    rw [tasks]
  own := by
    intro task' there
    refine own task' ?_
    rw [← there]
    exact (Function.update_self i task after.tasks).symm
  answers := answers

theorem Progress.resolved {after : World} {forgotten : Option String} {clear : Prop}
    (kept : after.shared.Kept) (moves : world.shared.Moves after.shared forgotten)
    (distinct : clear → after.shared.Distinct) (tasks : after.tasks = world.tasks)
    (answers : ∀ answer ∈ after.answers, answer ∈ world.answers ∨
      (answer.Sound ∧ (clear → answer.Complete))) {version : Int} {resolved : ResolvedTopic}
    (complete : clear → (Answer.metadata version (after.shared.created.lookup ⟨resolved.name⟩)
      resolved).Complete) :
    Progress world (after.resolved i version resolved) i forgotten clear := by
  refine Progress.setTask (after.answer _) kept moves distinct tasks ?_
    fun _ same => nomatch same
  intro answer among
  rcases List.mem_append.mp among with before | now
  · exact answers answer before
  · obtain rfl := List.mem_singleton.mp now
    exact Or.inr ⟨trivial, complete⟩

theorem unknownTopic_complete (version : Int) (created : Option CatalogEntry) (topic : String) :
    (Answer.metadata version created (World.unknownTopic topic)).Complete :=
  fun none => absurd (show ErrorCode.unknownTopicOrPartition = ErrorCode.none from none) (by decide)

theorem World.create_spec (kept : world.shared.Kept) {topic : String} {phase : Creating}
    (fits : phase.Fits world.shared topic) (i partitions : Nat) (creator : Option Principal) :
    let after := (world.create i topic partitions creator phase).1
    after.shared.Kept ∧ world.shared.Moves after.shared none ∧
      (world.shared.Distinct → (∀ name, phase.creates = some name → world.shared.Unshared name) →
        after.shared.Distinct) ∧
      after.tasks = world.tasks ∧ after.answers = world.answers ∧
      match (world.create i topic partitions creator phase).2 with
      | .goes later => later.Fits after.shared topic
      | .answers result => ∀ entry, result = some entry →
        after.shared.created.lookup ⟨topic⟩ = some entry := by
  obtain ⟨kept', moves, distinct, turned⟩ :=
    Shared.create_turn kept fits partitions creator
  unfold World.create
  cases stepped : (world.shared.create topic partitions creator phase) with
  | mk after turn =>
    rw [stepped] at kept' moves distinct turned
    cases turn with
    | goes later => exact ⟨kept', moves, distinct, rfl, rfl, turned⟩
    | answers result => exact ⟨kept', moves, distinct, rfl, rfl, turned⟩

/-- What a step of the call at `i` comes to. -/
abbrev World.Progresses (world : World) (i : Nat) (task : Task) (next : World) : Prop :=
  Progress world next i task.forgets (task.Clear world.shared)

section
variable {topic : String} {version : Int} {allow : Bool}

theorem World.finding_progress (kept : world.shared.Kept) {call : Call Serving}
    (fits : (Task.resolving topic version allow (.finding call)).Fits world.shared) :
    world.Progresses i (.resolving topic version allow (.finding call))
      (world.resolve i topic version allow (.finding call)) := by
  obtain ⟨kept', moves, created, tasks, answers, turned⟩ :=
    World.serve_spec kept fits false nofun
      ((Task.resolving topic version allow (.finding call)).Clear world.shared)
      fun clear => ⟨clear.steady, nofun⟩
  have distinct (clear : (Task.resolving topic version allow (.finding call)).Clear world.shared) :=
    clear.distinct.congr created
  cases stepped : (world.serve topic call) with
  | mk after turn =>
    rw [stepped] at kept' moves tasks answers turned distinct
    cases turn with
    | goes later =>
      simp only [World.resolve, stepped]
      refine Progress.setTask after kept' moves distinct tasks answers ?_
      intro own same
      cases same
      exact turned
    | answers result =>
      cases result with
      | some hit =>
        simp only [World.resolve, stepped]
        refine Progress.setTask after kept' moves distinct tasks answers ?_
        intro own same
        cases same
        obtain ⟨entry, entered, -⟩ := turned.1 hit rfl
        exact ⟨⟨World.call_serves kept' topic, entry, entered⟩,
          fun _ => World.call_steady after _ _ _⟩
      | none =>
        simp only [World.resolve, stepped]
        split
        · refine Progress.setTask { after with lifecycle := after.lifecycle.ask i .read } kept'
            moves distinct tasks answers ?_
          intro own same
          cases same
          exact ⟨trivial, fun _ => trivial⟩
        · exact Progress.resolved kept' moves distinct tasks answers
            fun _ => unknownTopic_complete _ _ _

theorem World.ensuring_progress (kept : world.shared.Kept) {phase : Creating}
    (fits : (Task.resolving topic version allow (.ensuring phase)).Fits world.shared) :
    world.Progresses i (.resolving topic version allow (.ensuring phase))
      (world.resolve i topic version allow (.ensuring phase)) := by
  obtain ⟨kept', moves, distinct, tasks, answers, turned⟩ :=
    World.create_spec kept fits i 1 none
  cases stepped : (world.create i topic 1 none phase) with
  | mk after turn =>
    rw [stepped] at kept' moves tasks answers turned distinct
    have answered : ∀ answer ∈ after.answers, answer ∈ world.answers ∨ (answer.Sound ∧
        ((Task.resolving topic version allow (.ensuring phase)).Clear world.shared →
          answer.Complete)) := by
      rw [answers]
      exact fun _ among => Or.inl among
    cases turn with
    | goes later =>
      simp only [World.resolve, stepped]
      refine Progress.setTask after kept' moves
        (fun clear => distinct clear.distinct clear.unshared) tasks answered ?_
      intro own same
      cases same
      exact ⟨turned, fun _ => trivial⟩
    | answers result =>
      cases result with
      | some entry =>
        simp only [World.resolve, stepped]
        refine Progress.setTask after kept' moves
          (fun clear => distinct clear.distinct clear.unshared) tasks answered ?_
        intro own same
        cases same
        exact ⟨⟨World.call_serves kept' topic, entry, turned entry rfl⟩,
          fun _ => World.call_steady after _ _ _⟩
      | none =>
        simp only [World.resolve, stepped]
        exact Progress.resolved kept' moves
          (fun clear => distinct clear.distinct clear.unshared) tasks answered
          fun _ => unknownTopic_complete _ _ _

theorem World.counting_progress (kept : world.shared.Kept) {call : Call Serving}
    (fits : (Task.resolving topic version allow (.counting call)).Fits world.shared) :
    world.Progresses i (.resolving topic version allow (.counting call))
      (world.resolve i topic version allow (.counting call)) := by
  obtain ⟨serves, entry, entered⟩ := fits
  obtain ⟨kept', moves, created, tasks, answers, turned⟩ :=
    World.serve_spec kept serves true (fun _ => ⟨entry, entered⟩)
      ((Task.resolving topic version allow (.counting call)).Clear world.shared)
      fun clear => ⟨clear.steady, fun _ generation loaded =>
        clear.there topic call generation rfl loaded⟩
  have distinct (clear : (Task.resolving topic version allow (.counting call)).Clear
    world.shared) := clear.distinct.congr created
  cases stepped : (world.serve topic call) with
  | mk after turn =>
    rw [stepped] at kept' moves tasks answers turned distinct
    have entered' := moves.created _ _ entered
    cases turn with
    | goes later =>
      simp only [World.resolve, stepped]
      refine Progress.setTask after kept' moves distinct tasks answers ?_
      intro own same
      cases same
      exact ⟨⟨turned.1, entry, entered'⟩, turned.2⟩
    | answers result =>
      obtain ⟨found, some_⟩ := turned
      have counted (clear : (Task.resolving topic version allow (.counting call)).Clear
          world.shared) : (result.map Served.partitions).getD 1 = entry.partitions := by
        obtain ⟨hit, rfl⟩ := Option.isSome_iff_exists.mp (some_ clear rfl)
        obtain ⟨other, entered'', -, partitions, -⟩ := found hit rfl
        rw [entered'] at entered''
        cases entered''
        exact partitions
      simp only [World.resolve, stepped]
      split
      · refine Progress.setTask after kept' moves distinct tasks answers ?_
        intro own same
        cases same
        refine ⟨⟨World.call_serves kept' topic, entry, entered'⟩, ?_⟩
        intro clear
        refine ⟨World.call_steady after _ _ _, ?_⟩
        intro other entered''
        rw [entered'] at entered''
        cases entered''
        exact counted clear
      · rename_i old
        refine Progress.resolved kept' moves distinct tasks answers ?_
        intro clear _
        exact ⟨entry, entered', counted clear, fun recent => absurd recent old⟩

theorem World.identifying_progress (kept : world.shared.Kept) {count : Nat} {call : Call Serving}
    (fits : (Task.resolving topic version allow (.identifying count call)).Fits world.shared) :
    world.Progresses i (.resolving topic version allow (.identifying count call))
      (world.resolve i topic version allow (.identifying count call)) := by
  obtain ⟨serves, entry, entered⟩ := fits
  obtain ⟨kept', moves, created, tasks, answers, turned⟩ :=
    World.serve_spec kept serves true (fun _ => ⟨entry, entered⟩)
      ((Task.resolving topic version allow (.identifying count call)).Clear world.shared)
      fun clear => ⟨clear.steady.1, fun _ generation loaded =>
        clear.there topic call generation rfl loaded⟩
  have distinct (clear : (Task.resolving topic version allow (.identifying count call)).Clear
    world.shared) := clear.distinct.congr created
  cases stepped : (world.serve topic call) with
  | mk after turn =>
    rw [stepped] at kept' moves created tasks answers turned distinct
    have entered' := moves.created _ _ entered
    cases turn with
    | goes later =>
      simp only [World.resolve, stepped]
      refine Progress.setTask after kept' moves distinct tasks answers ?_
      intro own same
      cases same
      refine ⟨⟨turned.1, entry, entered'⟩, fun clear => ⟨turned.2 clear, ?_⟩⟩
      rw [created]
      exact clear.steady.2
    | answers result =>
      obtain ⟨found, some_⟩ := turned
      simp only [World.resolve, stepped]
      refine Progress.resolved kept' moves distinct tasks answers ?_
      intro clear _
      refine ⟨entry, entered', clear.steady.2 entry entered, fun _ => ?_⟩
      obtain ⟨hit, rfl⟩ := Option.isSome_iff_exists.mp (some_ clear rfl)
      obtain ⟨other, entered'', id, -⟩ := found hit rfl
      rw [entered'] at entered''
      cases entered''
      exact id

theorem World.resolve_progress (kept : world.shared.Kept) {stage : Stage}
    (fits : (Task.resolving topic version allow stage).Fits world.shared) :
    world.Progresses i (.resolving topic version allow stage)
      (world.resolve i topic version allow stage) := by
  cases stage with
  | finding call => exact World.finding_progress kept fits
  | ensuring phase => exact World.ensuring_progress kept fits
  | counting call => exact World.counting_progress kept fits
  | identifying count call => exact World.identifying_progress kept fits

end

theorem World.serving_progress (kept : world.shared.Kept) {topic : String} {call : Call Serving}
    (fits : (Task.serving topic call).Fits world.shared) :
    world.Progresses i (.serving topic call) (world.turn i (.serving topic call)) := by
  obtain ⟨kept', moves, created, tasks, answers, turned⟩ :=
    World.serve_spec kept fits false nofun ((Task.serving topic call).Clear world.shared)
      fun clear => ⟨clear.steady, nofun⟩
  have distinct (clear : (Task.serving topic call).Clear world.shared) :=
    clear.distinct.congr created
  cases stepped : (world.serve topic call) with
  | mk after turn =>
    rw [stepped] at kept' moves tasks answers turned distinct
    cases turn with
    | goes later =>
      simp only [World.turn, stepped]
      refine Progress.setTask after kept' moves distinct tasks answers ?_
      intro own same
      cases same
      exact turned
    | answers result =>
      simp only [World.turn, stepped]
      exact Progress.setTask after kept' moves distinct tasks answers fun _ same => nomatch same

theorem World.naming_progress (kept : world.shared.Kept) {id : BitVec 128} {call : Call Naming}
    (fits : (Task.naming id call).Fits world.shared) :
    world.Progresses i (.naming id call) (world.turn i (.naming id call)) := by
  obtain ⟨started, fits⟩ := fits
  obtain ⟨kept', moves⟩ := Shared.nameById_moves kept fits
  have turned := Shared.nameById_turn kept fits
  have created := world.shared.nameById_created id call.phase
  -- what the resolution is to find after the step, it was to find before
  have earlier {entry : CatalogEntry} (existed : call.existed = some entry)
      (live : (world.shared.nameById id call.phase).1.catalog.lookupId id = some entry) :=
    moves.lookupId kept (started.existed entry existed) live
  cases stepped : (world.shared.nameById id call.phase) with
  | mk after turn =>
    rw [stepped] at kept' moves turned created earlier
    cases turn with
    | goes later =>
      simp only [World.turn, stepped]
      refine Progress.setTask { world with shared := after } kept' moves
        (fun clear => clear.distinct.congr created) rfl (fun _ among => Or.inl among) ?_
      intro own same
      cases same
      refine ⟨⟨⟨(started.later moves).gone, (started.later moves).existed⟩, turned.1⟩, ?_⟩
      intro clear entry existed live
      have before := earlier existed live
      exact turned.2 entry before (clear.steady entry existed before)
    | answers result =>
      simp only [World.turn, stepped]
      obtain ⟨found, gone, some_⟩ := turned
      refine Progress.setTask (World.answer { world with shared := after } _) kept' moves
        (fun clear => clear.distinct.congr created) rfl ?_ fun _ same => nomatch same
      intro answer among
      rcases List.mem_append.mp among with before | now
      · exact Or.inl before
      · obtain rfl := List.mem_singleton.mp now
        refine Or.inr ⟨?_, ?_⟩
        · intro name held gone
          exact found name held (started.gone _ gone)
        · intro clear entry existed live
          have before := earlier existed live
          exact some_ entry before (clear.steady entry existed before) clear.distinct

theorem World.creating_progress (kept : world.shared.Kept) {topic : String} {partitions : Nat}
    {creator : Option Principal} {phase : Creating}
    (fits : (Task.creating topic partitions creator phase).Fits world.shared) :
    world.Progresses i (.creating topic partitions creator phase)
      (world.turn i (.creating topic partitions creator phase)) := by
  obtain ⟨kept', moves, distinct, tasks, answers, turned⟩ :=
    World.create_spec kept fits i partitions creator
  cases stepped : (world.create i topic partitions creator phase) with
  | mk after turn =>
    rw [stepped] at kept' moves tasks answers turned distinct
    have answered : ∀ answer ∈ after.answers, answer ∈ world.answers ∨ (answer.Sound ∧
        ((Task.creating topic partitions creator phase).Clear world.shared →
          answer.Complete)) := by
      rw [answers]
      exact fun _ among => Or.inl among
    cases turn with
    | goes later =>
      simp only [World.turn, stepped]
      refine Progress.setTask after kept' moves
        (fun clear => distinct clear.distinct clear.unshared) tasks answered ?_
      intro own same
      cases same
      exact ⟨turned, fun _ => trivial⟩
    | answers result =>
      simp only [World.turn, stepped]
      exact Progress.setTask after kept' moves
        (fun clear => distinct clear.distinct clear.unshared) tasks answered
        fun _ same => nomatch same

theorem World.deleting_progress (kept : world.shared.Kept) {name : TopicId}
    {expectedId : Option (BitVec 128)} {phase : Deleting}
    (fits : (Task.deleting name expectedId phase).Fits world.shared) :
    world.Progresses i (.deleting name expectedId phase)
      (world.turn i (.deleting name expectedId phase)) := by
  obtain ⟨kept', moves, created, turned⟩ := Shared.delete_turn kept fits expectedId
  cases stepped : (world.shared.delete name expectedId phase) with
  | mk after turn =>
    rw [stepped] at kept' moves created turned
    cases turn with
    | goes later =>
      simp only [World.turn, stepped]
      refine Progress.setTask { world with shared := after } kept' moves
        (fun clear => clear.distinct.congr created) rfl (fun _ among => Or.inl among) ?_
      intro own same
      cases same
      exact ⟨turned, fun _ => trivial⟩
    | answers result =>
      simp only [World.turn, stepped]
      exact Progress.setTask { world with shared := after, lifecycle := _ } kept' moves
        (fun clear => clear.distinct.congr created) rfl (fun _ among => Or.inl among)
        fun _ same => nomatch same

theorem World.turn_progress (kept : world.shared.Kept) {task : Task}
    (fits : task.Fits world.shared) : world.Progresses i task (world.turn i task) := by
  cases task with
  | serving topic call => exact World.serving_progress kept fits
  | naming id call => exact World.naming_progress kept fits
  | creating topic partitions creator phase => exact World.creating_progress kept fits
  | deleting name expectedId phase => exact World.deleting_progress kept fits
  | resolving topic version allow stage => exact World.resolve_progress kept fits

/-- What an event does that is not a step of a call. -/
theorem Shared.elsewhere_moves {shared : Shared} (kept : shared.Kept) (call : Elsewhere) :
    (shared.elsewhere call).Kept ∧ shared.Moves (shared.elsewhere call) none ∧
      (shared.Distinct → (∀ name, call.creates = some name → shared.Unshared name) →
        (shared.elsewhere call).Distinct) := by
  have made {topic : String} {name : TopicId} (typed : TopicId.new topic = .ok name)
      {entry : CatalogEntry} (entered : entry.name = name) {catalog : Catalog}
      {made : CatalogEntry} (created : shared.catalog.createEntry entry = .ok (catalog, made)) :
      (shared.withCreated catalog made).Kept ∧
        shared.Moves (shared.withCreated catalog made) none ∧
        (shared.Distinct → (∀ name, some ⟨topic⟩ = some name → shared.Unshared name) →
          (shared.withCreated catalog made).Distinct) := by
    obtain ⟨rfl, proper⟩ := TopicId.new_eq_ok.mp typed
    obtain ⟨kept', moves, same, -⟩ := kept.create (entered ▸ proper) created
    refine ⟨kept', moves, fun distinct unshared => distinct.withCreated ?_⟩
    rw [same, entered]
    exact unshared name rfl
  cases call with
  | create topic partitions keyDomain =>
    unfold Shared.elsewhere
    dsimp only
    split
    · exact ⟨kept, .refl _, fun distinct _ => distinct⟩
    · rename_i name typed
      split
      · exact ⟨kept, .refl _, fun distinct _ => distinct⟩
      · rename_i catalog entry created
        exact made typed rfl created
  | createOwned topic partitions creator =>
    unfold Shared.elsewhere
    dsimp only
    split
    · exact ⟨kept, .refl _, fun distinct _ => distinct⟩
    · rename_i name typed
      split
      · exact ⟨kept, .refl _, fun distinct _ => distinct⟩
      · rename_i catalog entry created
        exact made typed rfl created
  | delete name expectedId =>
    obtain ⟨kept', moves⟩ := kept.delete name expectedId
    exact ⟨kept', moves, fun distinct _ => distinct⟩

theorem Progress.started (kept : world.Kept) (lifecycle : FairLock Nat) {task : Option Task}
    (own : ∀ own, task = some own → own.Fits world.shared ∧
      (world.Steady → own.Steady world.shared)) :
    Progress world ({ world with lifecycle }.setTask i task) i none world.Steady :=
  Progress.setTask { world with lifecycle } kept.shared (.refl world.shared) (fun steady => steady.distinct) rfl
    (fun _ among => Or.inl among) own

theorem Task.granted_fits {shared : Shared} {task : Task} (fits : task.Fits shared) :
    task.granted.Fits shared := by
  unfold Task.granted
  split
  · trivial
  · trivial
  · trivial
  · exact fits

theorem Task.granted_steady {shared : Shared} {task : Task} (steady : task.Steady shared) :
    task.granted.Steady shared := by
  unfold Task.granted
  split
  · trivial
  · trivial
  · trivial
  · exact steady

/-- What every event keeps, and what every clear one keeps besides. -/
theorem World.step_kept {event : Event} (kept : world.Kept) (stepped : world.step event = some next) :
    next.Kept ∧ (world.Clear event → world.Steady → next.Steady) := by
  have starts {i : Nat} {lifecycle : FairLock Nat} {task : Option Task}
      (own : ∀ own, task = some own → own.Fits world.shared ∧
        (world.Steady → own.Steady world.shared)) :
      ({ world with lifecycle }.setTask i task).Kept ∧
        (world.Clear event → world.Steady → ({ world with lifecycle }.setTask i task).Steady) := by
    have progress := Progress.started (i := i) kept lifecycle own
    exact ⟨progress.kept_next kept,
      fun _ steady => progress.steady_next kept nofun steady steady⟩
  have begins {i : Nat} {lifecycle : FairLock Nat} {task : Task}
      (stepped : (if (world.tasks i).isSome then none
        else some ({ world with lifecycle }.setTask i (some task))) = some next)
      (fits : task.Fits world.shared) (steady : world.Steady → task.Steady world.shared) :
      next.Kept ∧ (world.Clear event → world.Steady → next.Steady) := by
    split at stepped
    · cases stepped
    · cases stepped
      refine starts ?_
      intro own same
      cases same
      exact ⟨fits, steady⟩
  -- what all share moves, and no call
  have shares {shared : Shared} (kept' : shared.Kept) (moves : world.shared.Moves shared none)
      (distinct : world.Clear event → world.shared.Distinct → shared.Distinct) :
      World.Kept { world with shared } ∧
        (world.Clear event → world.Steady → World.Steady { world with shared }) := by
    refine ⟨⟨kept', ?_, kept.sound⟩, ?_⟩
    · intro i task there
      exact (kept.fits i task there).later moves
    · intro clear steady
      refine ⟨distinct clear steady.distinct, ?_, steady.complete⟩
      intro i task there
      exact (steady.steady i task there).later kept.shared moves (kept.fits i task there) nofun
  cases event with
  | serve i topic =>
    exact begins stepped (World.call_serves kept.shared topic)
      fun _ => World.call_steady world _ _ _
  | nameById i id =>
    refine begins stepped ⟨⟨fun _ gone => gone, ?_⟩, trivial⟩ fun _ _ _ _ => trivial
    intro entry existed
    obtain ⟨name, -, live⟩ := Option.bind_eq_some_iff.mp existed
    obtain rfl := kept.shared.lawful.named name entry live
    exact kept.shared.live _ _ live
  | create i topic partitions creator => exact begins stepped trivial fun _ => trivial
  | delete i name expectedId => exact begins stepped trivial fun _ => trivial
  | resolve i topic version allow =>
    exact begins stepped (World.call_serves kept.shared topic)
      fun _ => World.call_steady world _ _ _
  | grant =>
    obtain ⟨⟨i, lifecycle⟩, -, rfl⟩ := Option.map_eq_some_iff.mp stepped
    refine starts ?_
    intro own same
    obtain ⟨task, there, rfl⟩ := Option.map_eq_some_iff.mp same
    exact ⟨Task.granted_fits (kept.fits i task there),
      fun steady => Task.granted_steady (steady.steady i task there)⟩
  | advance i =>
    obtain ⟨task, there, stepped⟩ := Option.bind_eq_some_iff.mp stepped
    split at stepped
    · cases stepped
    · cases stepped
      have progress := World.turn_progress (i := i) kept.shared (kept.fits i task there)
      refine ⟨progress.kept_next kept, ?_⟩
      intro clear steady
      obtain ⟨safe, found, unshared⟩ := clear task there
      exact progress.steady_next kept safe
        ⟨steady.distinct, steady.steady i task there, found, unshared⟩ steady
  | elsewhere call =>
    cases stepped
    obtain ⟨kept', moves, distinct⟩ := Shared.elsewhere_moves kept.shared call
    exact shares kept' moves fun clear steady => distinct steady clear
  | tick elapsed =>
    cases stepped
    exact shares (kept.shared.tick _) (.tick _ _) fun _ distinct => distinct

theorem World.kept_start : World.Kept {} where
  shared := {
    lawful := Catalog.lawful_empty
    live := fun _ _ live => nomatch live
    known := fun _ _ created => nomatch created
    cached := fun _ _ cached => nomatch cached
    indexed := fun _ _ indexed => nomatch indexed
    gone := nofun }
  fits := nofun
  sound := nofun

end Worlds

end Oqueue.Broker.Topics
