import Oqueue.Broker.Remembering

/-!
# What one step of a resolution comes to

A call that asked the catalog holds an entry that was created, and it remembers the entry
only if nothing was taken out of the cache since. So it finds its topic if it is not exposed
to what other calls take out.
-/

namespace Oqueue.Broker.Topics

open Shared

namespace Answer

/-- What was gone when it started is not found. -/
def Sound : Answer → Prop
  | served topic gone _ _ result => result.isSome → ⟨topic⟩ ∉ gone
  | named _ gone _ _ result => ∀ name, result = some name → ⟨name⟩ ∉ gone
  | metadata .. => True

/-- What exists from its start to its end is found, and a topic answered without an error
carries its entry's partition count and, where the version has it, its id. -/
def Complete : Answer → Prop
  | served _ _ existed exists_ result => ∀ entry, existed = some entry → exists_ = some entry →
    ∃ hit, result = some hit ∧ hit.Of entry
  | named _ _ existed exists_ result => ∀ entry, existed = some entry → exists_ = some entry →
    result = some entry.name.name
  | metadata version created resolved => resolved.errorCode = ErrorCode.none →
    ∃ entry, created = some entry ∧ resolved.partitionCount = entry.partitions ∧
      (10 ≤ version → resolved.topicId = entry.id)

end Answer

/-- The resolution by name a call is in, and whether an earlier one found the topic. -/
def Task.resolution : Task → Option (String × Call Serving × Bool)
  | .serving topic call => some (topic, call, false)
  | .resolving topic _ _ (.finding call) => some (topic, call, false)
  | .resolving topic _ _ (.counting call) => some (topic, call, true)
  | .resolving topic _ _ (.identifying _ call) => some (topic, call, true)
  | _ => none

/-- Whether a resolution is to find the topic: it was there when it started and is there
still, or an earlier one of the same request found it. -/
def Call.Due (call : Call Serving) (shared : Shared) (topic : String) (must : Bool) : Prop :=
  must = true ∨ ∃ entry, call.existed = some entry ∧ shared.exists_ topic = some entry

/-- Whether a resolution fails if this name is taken out of the cache now. -/
def Serving.Open (topic name : String) : Serving → Prop
  | .loaded _ => True
  | .found .. => True
  | .remembered => topic = name
  | _ => False

def Naming.Open : Naming → Prop
  | .loaded _ => True
  | .found .. => True
  | _ => False

/-- Whether a call is to find something and misses it if this name is taken out now. -/
def Task.Exposed (shared : Shared) (name : String) (task : Task) : Prop :=
  (∃ topic call must, task.resolution = some (topic, call, must) ∧
    call.Due shared topic must ∧ call.phase.Open topic name) ∨
  ∃ id call entry, task = .naming id call ∧ call.existed = some entry ∧
    shared.catalog.lookupId id = some entry ∧ call.phase.Open

/-- The name a resolution's next step takes out of the cache. -/
def Serving.forgets (topic : String) : Serving → Option String
  | .stale _ => some topic
  | _ => none

def Naming.forgets : Naming → Option String
  | .stale name => some name
  | _ => none

def Deleting.forgets (name : TopicId) : Deleting → Option String
  | .deleted .. => some name.name
  | _ => none

/-- The name a call's next step takes out of the cache. -/
def Task.forgets : Task → Option String
  | .serving topic call => call.phase.forgets topic
  | .naming _ call => call.phase.forgets
  | .creating .. => none
  | .deleting name _ phase => phase.forgets name
  | .resolving topic _ _ (.finding call) => call.phase.forgets topic
  | .resolving _ _ _ (.ensuring _) => none
  | .resolving topic _ _ (.counting call) => call.phase.forgets topic
  | .resolving topic _ _ (.identifying _ call) => call.phase.forgets topic

/-- The name a creation's next step creates. -/
def Creating.creates : Creating → Option TopicId
  | .loaded name _ => some name
  | _ => none

def Task.creates : Task → Option TopicId
  | .creating _ _ _ phase => phase.creates
  | .resolving _ _ _ (.ensuring phase) => phase.creates
  | _ => none

def Elsewhere.creates : Elsewhere → Option TopicId
  | .create topic .. => some ⟨topic⟩
  | .createOwned topic .. => some ⟨topic⟩
  | .delete .. => none

/-- No other name that was created has this name's id. -/
def Shared.Unshared (shared : Shared) (name : TopicId) : Prop := ∀ other entry,
  shared.created.lookup other = some entry → topicUuid other = topicUuid name → other = name

/-- Nothing is taken out of the cache while a call is exposed to it, what a request found once
is still in the catalog when the request looks it up again, and no two names with one id are
created. -/
def World.Clear (world : World) : Event → Prop
  | .advance i => ∀ task, world.tasks i = some task →
    (∀ name, task.forgets = some name → ∀ j other, world.tasks j = some other →
      ¬ other.Exposed world.shared name) ∧
    (∀ topic call generation, task.resolution = some (topic, call, true) →
      call.phase = .loaded generation → (world.shared.exists_ topic).isSome) ∧
    ∀ name, task.creates = some name → world.shared.Unshared name
  | .elsewhere call => ∀ name, call.creates = some name → world.shared.Unshared name
  | _ => True

def Serving.Fits (shared : Shared) (topic : String) : Serving → Prop
  | .loaded generation => generation ≤ shared.cacheGeneration
  | .found entry generation => shared.Holds entry generation ∧ entry.name = ⟨topic⟩
  | _ => True

def Naming.Fits (shared : Shared) (id : BitVec 128) : Naming → Prop
  | .held name => id = topicUuid ⟨name⟩ ∧ (⟨name⟩ : TopicId).Typed
  | .stale name => (⟨name⟩ : TopicId).Typed
  | .loaded generation => generation ≤ shared.cacheGeneration
  | .found entry generation => shared.Holds entry generation
  | _ => True

def Creating.Fits (shared : Shared) (topic : String) : Creating → Prop
  | .loaded name generation => generation ≤ shared.cacheGeneration ∧ name = ⟨topic⟩ ∧ name.Typed
  | .made entry generation => shared.Holds entry generation ∧ entry.name = ⟨topic⟩
  | _ => True

def Deleting.Fits (shared : Shared) (name : TopicId) : Deleting → Prop
  | .deleted .. => name ∈ shared.catalog.tombstones
  | _ => True

structure Call.Started {φ : Type} (call : Call φ) (shared : Shared) : Prop where
  gone : ∀ name ∈ call.gone, name ∈ shared.gone
  existed : ∀ entry, call.existed = some entry → shared.created.lookup entry.name = some entry

structure Call.Serves (call : Call Serving) (shared : Shared) (topic : String) : Prop where
  started : call.Started shared
  existed : ∀ entry, call.existed = some entry → entry.name = ⟨topic⟩
  fits : call.phase.Fits shared topic

def Task.Fits (shared : Shared) : Task → Prop
  | .serving topic call => call.Serves shared topic
  | .naming id call => call.Started shared ∧ call.phase.Fits shared id
  | .creating topic _ _ phase => phase.Fits shared topic
  | .deleting name _ phase => phase.Fits shared name
  | .resolving topic _ _ stage => match stage with
    | .finding call => call.Serves shared topic
    | .ensuring phase => phase.Fits shared topic
    | .counting call => call.Serves shared topic ∧
      ∃ entry, shared.created.lookup ⟨topic⟩ = some entry
    | .identifying _ call => call.Serves shared topic ∧
      ∃ entry, shared.created.lookup ⟨topic⟩ = some entry

/-- No two names ever created have one id. -/
def Shared.Distinct (shared : Shared) : Prop := ∀ name entry other entry',
  shared.created.lookup name = some entry → shared.created.lookup other = some entry' →
    topicUuid name = topicUuid other → name = other

/-- Nothing was taken out since the count was loaded, and what was remembered is there. -/
def Serving.Steady (shared : Shared) (topic : String) : Serving → Prop
  | .loaded generation => generation = shared.cacheGeneration
  | .found _ generation => generation = shared.cacheGeneration
  | .remembered => shared.Caches topic
  | _ => True

def Naming.Steady (shared : Shared) (existed : CatalogEntry) : Naming → Prop
  | .loaded generation => generation = shared.cacheGeneration
  | .found entry generation => generation = shared.cacheGeneration ∧ entry = existed
  | _ => True

def Call.Steady (call : Call Serving) (shared : Shared) (topic : String) (must : Bool) : Prop :=
  call.Due shared topic must → call.phase.Steady shared topic

def Task.Steady (shared : Shared) : Task → Prop
  | .serving topic call => call.Steady shared topic false
  | .naming id call => ∀ entry, call.existed = some entry →
    shared.catalog.lookupId id = some entry → call.phase.Steady shared entry
  | .creating .. => True
  | .deleting .. => True
  | .resolving topic _ _ stage => match stage with
    | .finding call => call.Steady shared topic false
    | .ensuring _ => True
    | .counting call => call.Steady shared topic true
    | .identifying count call => call.Steady shared topic true ∧
      ∀ entry, shared.created.lookup ⟨topic⟩ = some entry → count = entry.partitions

section Elsewhere

variable {shared after : Shared} {forgotten : Option String}

theorem Serving.Fits.later (moves : shared.Moves after forgotten) {topic : String}
    {phase : Serving} (fits : phase.Fits shared topic) : phase.Fits after topic := by
  cases phase with
  | loaded generation => exact le_trans fits moves.generation
  | found entry generation => exact ⟨fits.1.later moves, fits.2⟩
  | _ => trivial

theorem Naming.Fits.later (moves : shared.Moves after forgotten) {id : BitVec 128}
    {phase : Naming} (fits : phase.Fits shared id) : phase.Fits after id := by
  cases phase with
  | held name => exact fits
  | stale name => exact fits
  | loaded generation => exact le_trans fits moves.generation
  | found entry generation => exact Holds.later moves fits
  | _ => trivial

theorem Creating.Fits.later (moves : shared.Moves after forgotten) {topic : String}
    {phase : Creating} (fits : phase.Fits shared topic) : phase.Fits after topic := by
  cases phase with
  | loaded name generation => exact ⟨fits.1.trans moves.generation, fits.2⟩
  | made entry generation => exact ⟨fits.1.later moves, fits.2⟩
  | _ => trivial

theorem Deleting.Fits.later (moves : shared.Moves after forgotten) {name : TopicId}
    {phase : Deleting} (fits : phase.Fits shared name) : phase.Fits after name := by
  cases phase with
  | deleted id outcome => exact moves.catalog.reserved name fits
  | _ => trivial

theorem Call.Started.later (moves : shared.Moves after forgotten) {φ : Type} {call : Call φ}
    (started : call.Started shared) : call.Started after where
  gone := fun name gone => moves.gone name (started.gone name gone)
  existed := fun entry existed => moves.created _ _ (started.existed entry existed)

theorem Call.Serves.later (moves : shared.Moves after forgotten) {call : Call Serving}
    {topic : String} (serves : call.Serves shared topic) : call.Serves after topic where
  started := serves.started.later moves
  existed := serves.existed
  fits := serves.fits.later moves

theorem Task.Fits.later (moves : shared.Moves after forgotten) {task : Task}
    (fits : task.Fits shared) : task.Fits after := by
  have created {topic : String} (held : ∃ entry, shared.created.lookup ⟨topic⟩ = some entry) :
      ∃ entry, after.created.lookup ⟨topic⟩ = some entry := by
    obtain ⟨entry, held⟩ := held
    exact ⟨entry, moves.created _ _ held⟩
  cases task with
  | serving topic call => exact Call.Serves.later moves fits
  | naming id call => exact ⟨fits.1.later moves, fits.2.later moves⟩
  | creating topic partitions creator phase => exact Creating.Fits.later moves fits
  | deleting name expectedId phase => exact Deleting.Fits.later moves fits
  | resolving topic version allow stage =>
    cases stage with
    | finding call => exact Call.Serves.later moves fits
    | ensuring phase => exact Creating.Fits.later moves fits
    | counting call => exact ⟨fits.1.later moves, created fits.2⟩
    | identifying count call => exact ⟨fits.1.later moves, created fits.2⟩

theorem Call.Due.earlier (kept : shared.Kept) (moves : shared.Moves after forgotten)
    {call : Call Serving} {topic : String} (serves : call.Serves shared topic) {must : Bool}
    (due : call.Due after topic must) : call.Due shared topic must := by
  rcases due with must | ⟨entry, existed, live⟩
  · exact Or.inl must
  · have created := serves.started.existed entry existed
    rw [serves.existed entry existed] at created
    exact Or.inr ⟨entry, existed, moves.lookup kept created live⟩

/-- A resolution that is to find its topic and is not exposed to a move stays on its way. -/
theorem Call.Steady.later (kept : shared.Kept) (moves : shared.Moves after forgotten)
    {call : Call Serving} {topic : String} {must : Bool} (serves : call.Serves shared topic)
    (safe : ∀ name, forgotten = some name → call.Due shared topic must →
      ¬ call.phase.Open topic name)
    (steady : call.Steady shared topic must) : call.Steady after topic must := by
  intro due
  replace due := due.earlier kept moves serves
  have before := steady due
  have same (exposed : ∀ name, call.phase.Open topic name) :
      after.cacheGeneration = shared.cacheGeneration := by
    refine moves.same ?_
    cases forgotten with
    | none => rfl
    | some name => exact absurd (exposed name) (safe name rfl due)
  cases phase : call.phase with
  | loaded generation =>
    rw [phase] at before same
    exact before.trans (same fun _ => trivial).symm
  | found entry generation =>
    rw [phase] at before same
    exact before.trans (same fun _ => trivial).symm
  | remembered =>
    rw [phase] at before safe
    refine moves.caches topic ?_ before
    intro forgets
    exact safe topic forgets due rfl
  | _ => trivial

theorem Task.Steady.later (kept : shared.Kept) (moves : shared.Moves after forgotten) {task : Task}
    (fits : task.Fits shared)
    (safe : ∀ name, forgotten = some name → ¬ task.Exposed shared name)
    (steady : task.Steady shared) : task.Steady after := by
  -- a move past an entry that was created leaves what was created
  have count {topic : String} {count : Nat}
      (held : ∃ entry, shared.created.lookup ⟨topic⟩ = some entry)
      (counted : ∀ entry, shared.created.lookup ⟨topic⟩ = some entry → count = entry.partitions) :
      ∀ entry, after.created.lookup ⟨topic⟩ = some entry → count = entry.partitions := by
    obtain ⟨entry, held⟩ := held
    intro entry' held'
    rw [moves.created _ _ held] at held'
    cases held'
    exact counted entry held
  cases task with
  | serving topic call =>
    exact Call.Steady.later kept moves fits
      (fun name forgets due exposed => safe name forgets (Or.inl ⟨_, _, _, rfl, due, exposed⟩)) steady
  | naming id call =>
    intro entry existed live
    replace live := moves.lookupId kept (fits.1.existed entry existed) live
    have before := steady entry existed live
    have same (exposed : call.phase.Open) :
        after.cacheGeneration = shared.cacheGeneration := by
      refine moves.same ?_
      cases forgotten with
      | none => rfl
      | some name =>
        exact absurd (Or.inr ⟨id, call, entry, rfl, existed, live, exposed⟩) (safe name rfl)
    cases phase : call.phase with
    | loaded generation =>
      rw [phase] at before same
      exact before.trans (same trivial).symm
    | found entry' generation =>
      rw [phase] at before same
      exact ⟨before.1.trans (same trivial).symm, before.2⟩
    | _ => trivial
  | creating topic partitions creator phase => trivial
  | deleting name expectedId phase => trivial
  | resolving topic version allow stage =>
    cases stage with
    | finding call =>
      exact Call.Steady.later kept moves fits
        (fun name forgets due exposed => safe name forgets (Or.inl ⟨_, _, _, rfl, due, exposed⟩))
        steady
    | ensuring phase => trivial
    | counting call =>
      exact Call.Steady.later kept moves fits.1
        (fun name forgets due exposed => safe name forgets (Or.inl ⟨_, _, _, rfl, due, exposed⟩))
        steady
    | identifying counted call =>
      refine ⟨Call.Steady.later kept moves fits.1
        (fun name forgets due exposed => safe name forgets (Or.inl ⟨_, _, _, rfl, due, exposed⟩))
        steady.1, count fits.2 steady.2⟩

end Elsewhere

section Steps

variable {shared : Shared}

theorem Shared.serve_moves (kept : shared.Kept) {topic : String} {phase : Serving}
    (fits : phase.Fits shared topic) : (shared.serve topic phase).1.Kept ∧
      shared.Moves (shared.serve topic phase).1 (phase.forgets topic) := by
  cases phase with
  | asked =>
    unfold Shared.serve
    dsimp only
    split
    · split
      · exact ⟨kept, .refl _⟩
      · exact ⟨kept, .refl _⟩
    · exact ⟨kept, .refl _⟩
  | stale id =>
    unfold Shared.serve
    dsimp only
    split
    · exact ⟨kept, .refl _⟩
    · rename_i name typed
      obtain ⟨rfl, -⟩ := TopicId.new_eq_ok.mp typed
      exact ⟨kept.forgetName _ _, .forgetName _ _ _⟩
  | missed =>
    unfold Shared.serve
    dsimp only
    split
    · exact ⟨kept, .refl _⟩
    · exact ⟨kept, .refl _⟩
  | loaded generation =>
    unfold Shared.serve
    dsimp only
    split
    · exact ⟨kept, .refl _⟩
    · exact ⟨kept, .refl _⟩
  | found entry generation => exact ⟨kept.remember fits.1, .remember _ _ _⟩
  | remembered => exact ⟨kept, .refl _⟩

/-- What a step of a resolution by name comes to: it goes on as it should, or it finds the
entry that was created. Steady and with the topic there, it does not come to nothing. -/
theorem Shared.serve_turn (kept : shared.Kept) {topic : String} {phase : Serving}
    (fits : phase.Fits shared topic) :
    match (shared.serve topic phase).2 with
    | .goes next => next.Fits (shared.serve topic phase).1 topic ∧
      (phase.Steady shared topic → next.Steady (shared.serve topic phase).1 topic)
    | .answers result => (∀ hit, result = some hit → shared.Caches topic ∧
        ∃ entry, shared.created.lookup ⟨topic⟩ = some entry ∧ hit.Of entry) ∧
      (shared.serve topic phase).1 = shared ∧
      (phase.Steady shared topic → (∃ entry, shared.created.lookup ⟨topic⟩ = some entry) →
        (∀ generation, phase = .loaded generation → (shared.exists_ topic).isSome) →
        result.isSome) := by
  have cached {hit : Served} (held : shared.cache.byName.lookup topic = some hit) :
      shared.Caches topic ∧ ∃ entry, shared.created.lookup ⟨topic⟩ = some entry ∧ hit.Of entry := by
    refine ⟨?_, kept.cached topic hit held⟩
    unfold Caches
    rw [held]
    rfl
  have untyped {error : Error} (refused : TopicId.new topic = .error error)
      (created : ∃ entry, shared.created.lookup ⟨topic⟩ = some entry) : False := by
    obtain ⟨entry, created⟩ := created
    have typed := TopicId.new_eq_ok.mpr ⟨rfl, (kept.known _ _ created).2.1⟩
    rw [typed] at refused
    cases refused
  cases phase with
  | asked =>
    cases held : shared.cache.byName.lookup topic with
    | some hit =>
      simp only [Shared.serve, held]
      by_cases fresh : shared.cacheIsFresh hit = true
      · rw [if_pos fresh]
        refine ⟨?_, rfl, fun _ _ _ => rfl⟩
        intro other same
        cases same
        exact cached held
      · rw [if_neg fresh]
        exact ⟨trivial, fun _ => trivial⟩
    | none =>
      simp only [Shared.serve, held]
      exact ⟨trivial, fun _ => trivial⟩
  | stale id =>
    cases typed : TopicId.new topic with
    | error error =>
      simp only [Shared.serve, typed]
      exact ⟨nofun, trivial, fun _ created _ => absurd created (untyped typed)⟩
    | ok name =>
      simp only [Shared.serve, typed]
      exact ⟨trivial, fun _ => trivial⟩
  | missed =>
    cases typed : TopicId.new topic with
    | error error =>
      simp only [Shared.serve, typed]
      exact ⟨nofun, trivial, fun _ created _ => absurd created (untyped typed)⟩
    | ok name =>
      simp only [Shared.serve, typed]
      exact ⟨le_refl _, fun _ => rfl⟩
  | loaded generation =>
    cases live : shared.catalog.lookup ⟨topic⟩ with
    | none =>
      simp only [Shared.serve, live]
      refine ⟨nofun, trivial, ?_⟩
      intro _ _ there
      have there := there generation rfl
      unfold exists_ at there
      rw [live] at there
      exact there
    | some entry =>
      simp only [Shared.serve, live]
      exact ⟨⟨kept.holds live fits, kept.lawful.named _ _ live⟩, fun steady => steady⟩
  | found entry generation =>
    refine ⟨trivial, ?_⟩
    rintro rfl
    have caches := @Holds.caches shared entry _ rfl
    rw [fits.2] at caches
    exact caches
  | remembered =>
    refine ⟨fun hit held => cached held, rfl, fun steady _ _ => steady⟩

theorem Shared.nameById_moves (kept : shared.Kept) {id : BitVec 128} {phase : Naming}
    (fits : phase.Fits shared id) : (shared.nameById id phase).1.Kept ∧
      shared.Moves (shared.nameById id phase).1 phase.forgets := by
  cases phase with
  | asked =>
    unfold Shared.nameById
    dsimp only
    split
    · exact ⟨kept, .refl _⟩
    · exact ⟨kept, .refl _⟩
  | held name =>
    unfold Shared.nameById
    dsimp only
    split
    · exact ⟨kept, .refl _⟩
    · exact ⟨kept, .refl _⟩
  | stale name =>
    unfold Shared.nameById
    dsimp only
    split
    · exact ⟨kept, .refl _⟩
    · rename_i topic typed
      obtain ⟨rfl, -⟩ := TopicId.new_eq_ok.mp typed
      exact ⟨kept.forgetName _ _, .forgetName _ _ _⟩
  | missed => exact ⟨kept, .refl _⟩
  | loaded generation =>
    unfold Shared.nameById
    dsimp only
    split
    · exact ⟨kept, .refl _⟩
    · exact ⟨kept, .refl _⟩
  | found entry generation => exact ⟨kept.remember fits, .remember _ _ _⟩

theorem Shared.nameById_turn (kept : shared.Kept) {id : BitVec 128} {phase : Naming}
    (fits : phase.Fits shared id) :
    match (shared.nameById id phase).2 with
    | .goes next => next.Fits (shared.nameById id phase).1 id ∧
      ∀ entry, shared.catalog.lookupId id = some entry → phase.Steady shared entry →
        next.Steady (shared.nameById id phase).1 entry
    | .answers result => (∀ name, result = some name → ⟨name⟩ ∉ shared.gone) ∧
      (shared.nameById id phase).1.gone = shared.gone ∧
      ∀ entry, shared.catalog.lookupId id = some entry → phase.Steady shared entry →
        shared.Distinct → result = some entry.name.name := by
  have created {entry : CatalogEntry} (live : shared.catalog.lookupId id = some entry) :
      shared.created.lookup entry.name = some entry := by
    obtain ⟨name, -, live⟩ := Option.bind_eq_some_iff.mp live
    obtain rfl := kept.lawful.named name entry live
    exact kept.live _ _ live
  cases phase with
  | asked =>
    cases indexed : shared.cache.byId.lookup id with
    | some name =>
      simp only [Shared.nameById, indexed]
      exact ⟨kept.indexed id name indexed, fun _ _ _ => trivial⟩
    | none =>
      simp only [Shared.nameById, indexed]
      exact ⟨trivial, fun _ _ _ => trivial⟩
  | held name =>
    by_cases fresh : (shared.cache.byName.lookup name).any shared.cacheIsFresh = true
    · simp only [Shared.nameById, if_pos fresh]
      obtain ⟨served, held, -⟩ := (Option.any_eq_true _ _).mp fresh
      have caches : shared.Caches name := by
        unfold Caches
        rw [held]
        rfl
      refine ⟨?_, trivial, ?_⟩
      · intro other same
        cases same
        exact kept.notMem_gone caches
      · intro entry live _ distinct
        obtain ⟨entry', created', -⟩ := kept.cached name served held
        have same : topicUuid ⟨name⟩ = topicUuid entry.name :=
          fits.1.symm.trans (kept.lawful.id_eq live).symm
        rw [← distinct _ _ _ _ created' (created live) same]
    · simp only [Shared.nameById, if_neg fresh]
      exact ⟨fits.2, fun _ _ _ => trivial⟩
  | stale name =>
    have typed := TopicId.new_eq_ok.mpr ⟨rfl, fits⟩
    simp only [Shared.nameById, typed]
    exact ⟨trivial, fun _ _ _ => trivial⟩
  | missed => exact ⟨le_refl _, fun _ _ _ => rfl⟩
  | loaded generation =>
    cases live : shared.catalog.lookupId id with
    | none =>
      simp only [Shared.nameById, live]
      exact ⟨nofun, trivial, nofun⟩
    | some entry =>
      simp only [Shared.nameById, live]
      obtain ⟨name, -, found⟩ := Option.bind_eq_some_iff.mp live
      refine ⟨kept.holds found fits, ?_⟩
      intro other same steady
      cases same
      exact ⟨steady, rfl⟩
  | found entry generation =>
    by_cases now : shared.cacheGeneration = generation
    · simp only [Shared.nameById, rememberIfGeneration_of_eq now]
      refine ⟨?_, remembered_gone _ _, ?_⟩
      · intro name same gone
        cases same
        exact absurd now (fits.gone gone).ne'
      · intro other _ steady _
        rw [steady.2]
    · simp only [Shared.nameById, rememberIfGeneration_of_ne now]
      refine ⟨nofun, trivial, ?_⟩
      intro other _ steady
      exact absurd steady.1.symm now

theorem Shared.serve_created (topic : String) (phase : Serving) :
    (shared.serve topic phase).1.created = shared.created := by
  cases phase with
  | found entry generation => exact remembered_created _ _
  | remembered => rfl
  | asked =>
    unfold Shared.serve
    dsimp only
    split
    · split
      · rfl
      · rfl
    · rfl
  | _ =>
    unfold Shared.serve
    dsimp only
    split
    · rfl
    · rfl

theorem Shared.nameById_created (id : BitVec 128) (phase : Naming) :
    (shared.nameById id phase).1.created = shared.created := by
  cases phase with
  | found entry generation => exact remembered_created _ _
  | missed => rfl
  | _ =>
    unfold Shared.nameById
    dsimp only
    split
    · rfl
    · rfl

/-- Creating a name with an id of its own. -/
theorem Shared.Distinct.withCreated (distinct : shared.Distinct) {catalog : Catalog}
    {made : CatalogEntry} (unshared : shared.Unshared made.name) :
    (shared.withCreated catalog made).Distinct := by
  have lookup (name : TopicId) : (shared.withCreated catalog made).created.lookup name =
      if name = made.name then some made else shared.created.lookup name :=
    Table.lookup_insert_eq _ _ _ _
  intro name entry other entry' held held' same
  rw [lookup] at held held'
  split at held
  · rename_i named
    split at held'
    · rename_i named'
      exact named.trans named'.symm
    · rw [named] at same ⊢
      exact (unshared other entry' held' same.symm).symm
  · split at held'
    · rename_i named'
      rw [named'] at same ⊢
      exact unshared name entry held same
    · exact distinct name entry other entry' held held' same

/-- What a step of a creation comes to. -/
theorem Shared.create_turn (kept : shared.Kept) {topic : String} {phase : Creating}
    (fits : phase.Fits shared topic) (partitions : Nat) (creator : Option Principal) :
    let after := (shared.create topic partitions creator phase).1
    after.Kept ∧ shared.Moves after none ∧
      (shared.Distinct → (∀ name, phase.creates = some name → shared.Unshared name) →
        after.Distinct) ∧
      match (shared.create topic partitions creator phase).2 with
      | .goes next => next.Fits after topic
      | .answers result => ∀ entry, result = some entry →
        after.created.lookup ⟨topic⟩ = some entry := by
  cases phase with
  | waiting => exact ⟨kept, .refl _, fun distinct _ => distinct, trivial⟩
  | locked =>
    cases typed : TopicId.new topic with
    | error error =>
      simp only [Shared.create, typed]
      exact ⟨kept, .refl _, fun distinct _ => distinct, nofun⟩
    | ok name =>
      simp only [Shared.create, typed]
      obtain ⟨rfl, proper⟩ := TopicId.new_eq_ok.mp typed
      exact ⟨kept, .refl _, fun distinct _ => distinct, le_refl _, rfl, proper⟩
  | loaded name generation =>
    obtain ⟨past, named, typed⟩ := fits
    cases created : shared.catalogCreate name partitions creator with
    | error error =>
      simp only [Shared.create, created]
      exact ⟨kept, .refl _, fun distinct _ => distinct, nofun⟩
    | ok made =>
      obtain ⟨catalog, made⟩ := made
      obtain ⟨entry, entered, created'⟩ : ∃ entry : CatalogEntry, entry.name = name ∧
          shared.catalog.createEntry entry = .ok (catalog, made) := by
        cases creator with
        | none => exact ⟨_, rfl, created⟩
        | some creator => exact ⟨_, rfl, created⟩
      obtain ⟨kept', moves, same, live⟩ := kept.create (entered ▸ typed) created'
      simp only [Shared.create, created]
      refine ⟨kept', moves, ?_, kept'.holds live past, ?_⟩
      · intro distinct unshared
        refine distinct.withCreated ?_
        rw [same, entered]
        exact unshared name rfl
      · rw [same, entered, named]
  | made entry generation =>
    have created := @remembered_created shared entry generation
    refine ⟨kept.remember fits.1, .remember _ _ _, ?_, ?_⟩
    · intro distinct _
      unfold Distinct
      rw [show (shared.create topic partitions creator (.made entry generation)).1.created =
        shared.created from created]
      exact distinct
    · intro other same
      cases same
      rw [show (shared.create topic partitions creator (.made entry generation)).1.created =
        shared.created from created, ← fits.2]
      exact fits.1.created

/-- What a step of a deletion comes to. -/
theorem Shared.delete_turn (kept : shared.Kept) {name : TopicId} {phase : Deleting}
    (fits : phase.Fits shared name) (expectedId : Option (BitVec 128)) :
    let after := (shared.delete name expectedId phase).1
    after.Kept ∧ shared.Moves after (phase.forgets name) ∧ after.created = shared.created ∧
      match (shared.delete name expectedId phase).2 with
      | .goes next => next.Fits after name
      | .answers _ => True := by
  cases phase with
  | waiting => exact ⟨kept, .refl _, rfl, trivial⟩
  | locked =>
    obtain ⟨kept', moves⟩ := kept.delete name expectedId
    rcases shared.catalog.delete_cases name expectedId with
      ⟨entry, live, deleted⟩ | ⟨id, reserved, deleted⟩ | deleted | ⟨expected, actual, deleted⟩
    · rw [deleted] at kept' moves
      simp only [Shared.delete, deleted]
      refine ⟨kept', moves, trivial, ?_⟩
      rw [← kept.lawful.named name entry live]
      exact Finmap.mem_insert.mpr (Or.inl rfl)
    · rw [deleted] at kept' moves
      simp only [Shared.delete, deleted]
      exact ⟨kept', moves, trivial, Finmap.mem_of_lookup_eq_some reserved⟩
    · rw [deleted] at kept' moves
      simp only [Shared.delete, deleted]
      exact ⟨kept', moves, trivial, trivial⟩
    · rw [deleted] at kept' moves
      simp only [Shared.delete, deleted]
      exact ⟨kept', moves, trivial, trivial⟩
  | deleted id outcome => exact ⟨kept.bury fits id, .bury _ _ _, rfl, trivial⟩

end Steps

end Oqueue.Broker.Topics
