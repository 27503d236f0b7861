import Oqueue.Broker.Parked

/-!
# What wakes a parked fetch

A commit the last read has not shown lies past what the handler waits to get
past, so its announcement ends the wait, and a wait it has ended is followed by
another read.
-/

namespace Oqueue

open IndexState

namespace Broker.Park

variable {setting : Setting} {world next : World}

theorem above_iff {applied : Option Nat} {version : Nat} :
    Above applied version ↔ ¬ AtMost version applied := by
  constructor
  · intro above reached
    obtain ⟨upto, same, le⟩ := reached
    exact absurd le (Nat.not_le.mpr (above upto same))
  · intro short upto same
    by_contra le
    exact short ⟨upto, same, Nat.not_lt.mp le⟩

theorem Held.Kept.above {held : Held}
    (pass : held.Kept setting world setting.request.asks held.applied)
    (fine : ∀ outcome ∈ held.outcomes, outcome.errorCode = ErrorCode.none) {commit : Commit}
    (folded : commit ∈ world.commits) (missed : Misses setting held.outcomes commit) :
    Above held.applied commit.version := by
  rw [above_iff]
  intro reached
  obtain ⟨ask, outcome, member, named, short⟩ := missed
  obtain ⟨-, pairs⟩ := List.forall₂_iff_zip.mp pass.outcomes
  obtain ⟨key, stop, named', high, covers, -⟩ := pairs member (fine _ (List.of_mem_zip member).2)
  have same : commit.key = key := Option.some.inj (named.symm.trans named')
  have shown : commit.stop ≤ stop := covers commit folded same reached
  rw [high] at short
  exact absurd shown (Nat.not_le.mpr (Int.ofNat_lt.mp short))

def Handler.reads : Handler → Nat
  | .arriving | .catchingUp | .refusing .. => 0
  | .sampling reads .. => reads
  | .reading held .. => held.reads + 1
  | .waiting held | .woken held | .checking held .. => held.reads
  | .returned _ reads _ => reads

/-- How many of its own steps a woken handler is short of its next read. -/
def Handler.ahead (setting : Setting) : Handler → Nat
  | .woken _ => 2 * setting.request.asks.length + 3
  | .checking _ left _ => left.length + setting.request.asks.length + 2
  | .sampling _ _ left _ => left.length + 1
  | _ => 0

def Action.handles : Action → Bool
  | .handle _ => true
  | _ => false

/-- Where a handler that a commit has woken stands before it reads again. -/
inductive Heading (held : Held) (commit : Commit) : Handler → Prop where
  | woken : Heading held commit (.woken held)
  | checking {checking : Held} {left : List Ask} {ends : List Nat} :
    checking.reads = held.reads → checking.outcomes = held.outcomes →
    AtMost commit.version checking.applied → Heading held commit (.checking checking left ends)
  | sampling {objects : FetchedObjects} {left : List Ask} {ends : List Nat} :
    Heading held commit (.sampling held.reads objects left ends)

/-- A commit woke the handler, which has yet to read again. -/
structure Roused (held : Held) (commit : Commit) (world : World) : Prop where
  folded : commit ∈ world.commits
  announced : AtMost commit.version world.announced
  heading : Heading held commit world.handler

section
variable {held : Held} {commit : Commit}

theorem Roused.handles (roused : Roused held commit world)
    (store : ObjectKey → ByteRange → Except Error (List UInt8)) :
    ∃ next, world.handled setting store = some next := by
  have heading := roused.heading
  unfold World.handled
  generalize world.handler = handler at heading ⊢
  cases heading with
  | woken => exact ⟨_, rfl⟩
  | @checking checking left ends => cases left <;> exact ⟨_, rfl⟩
  | @sampling objects left ends => cases left <;> exact ⟨_, rfl⟩

theorem Roused.ahead_pos (roused : Roused held commit world) (setting : Setting) :
    0 < world.handler.ahead setting := by
  have heading := roused.heading
  generalize world.handler = handler at heading ⊢
  cases heading <;> exact Nat.succ_pos _

theorem Roused.not_waiting (roused : Roused held commit world) (waiting : Held) :
    world.handler ≠ .waiting waiting := by
  intro phase
  have heading := roused.heading
  rw [phase] at heading
  cases heading

theorem Roused.not_catchingUp (roused : Roused held commit world) :
    world.handler ≠ .catchingUp := by
  intro phase
  have heading := roused.heading
  rw [phase] at heading
  cases heading

/-- A woken handler's own step brings it nearer to its next read; it does not go back to wait, for
the watermark that this commit moved has moved. -/
theorem Roused.handled (roused : Roused held commit world) (kept : next.Kept setting)
    (missed : Misses setting held.outcomes commit)
    {store : ObjectKey → ByteRange → Except Error (List UInt8)}
    (stepped : world.handled setting store = some next) :
    held.reads < next.handler.reads ∨ Roused held commit next ∧
      next.handler.ahead setting + 1 ≤ world.handler.ahead setting := by
  obtain ⟨folded, announced, heading⟩ := roused
  unfold World.handled at stepped
  generalize world.handler = handler at heading stepped ⊢
  cases heading with
  | woken =>
    cases stepped
    refine .inr ⟨⟨folded, announced, .checking rfl rfl announced⟩, ?_⟩
    change setting.request.asks.length + setting.request.asks.length + 2 + 1 ≤
      2 * setting.request.asks.length + 3
    omega
  | @checking checking left ends reads outcomes reached =>
    cases left with
    | nil =>
      cases stepped
      split
      · -- Back to wait is where nothing up to the announced version is missed.
        rename_i same
        have seen := kept.handler
        rw [if_pos same] at seen
        rw [← outcomes] at missed
        exact absurd reached (above_iff.mp (seen.1.above seen.2 folded missed))
      · exact .inr ⟨⟨folded, announced, reads ▸ .sampling⟩, by
          change setting.request.asks.length + 1 + 1 ≤ 0 + setting.request.asks.length + 2
          omega⟩
    | cons ask left =>
      cases stepped
      refine .inr ⟨⟨folded, announced, .checking reads outcomes reached⟩, ?_⟩
      change left.length + setting.request.asks.length + 2 + 1 ≤
        (left.length + 1) + setting.request.asks.length + 2
      omega
  | @sampling objects left ends =>
    cases left with
    | nil =>
      cases stepped
      exact .inl (Nat.lt_succ_self _)
    | cons ask left =>
      cases stepped
      exact .inr ⟨⟨folded, announced, .sampling⟩, Nat.le_refl _⟩

/-- No other step disturbs a woken handler. -/
theorem Roused.step (roused : Roused held commit world) (kept : world.Kept setting)
    (missed : Misses setting held.outcomes commit) {action : Action}
    (stepped : world.step setting action = some next) :
    held.reads < next.handler.reads ∨ Roused held commit next ∧
      next.handler.ahead setting + (if action.handles then 1 else 0) ≤
        world.handler.ahead setting := by
  have afterwards := kept.step stepped
  cases action with
  | fold entry =>
    obtain ⟨after, -, rfl⟩ := step_fold stepped
    exact .inr ⟨⟨List.mem_append_left _ roused.folded, roused.announced, roused.heading⟩,
      Nat.le_refl _⟩
  | announce =>
    cases step_announce stepped
    exact .inr ⟨⟨roused.folded, kept.announced _ roused.announced, roused.heading⟩,
      Nat.le_refl _⟩
  | stop =>
    cases stepped
    exact .inr ⟨⟨roused.folded, roused.announced, roused.heading⟩, Nat.le_refl _⟩
  | tick =>
    cases stepped
    exact .inr ⟨⟨roused.folded, roused.announced, roused.heading⟩, Nat.le_refl _⟩
  | handle store => exact roused.handled afterwards missed stepped
  | caughtUp held => exact absurd (step_caughtUp stepped).1 roused.not_catchingUp
  | wake =>
    obtain ⟨waiting, phase, -⟩ := step_wake stepped
    exact absurd phase (roused.not_waiting waiting)
  | expire =>
    obtain ⟨waiting, phase, -⟩ := step_expire stepped
    exact absurd phase (roused.not_waiting waiting)
  | close =>
    obtain ⟨waiting, phase, -⟩ := step_close stepped
    exact absurd phase (roused.not_waiting waiting)

theorem handled_reads_le {store : ObjectKey → ByteRange → Except Error (List UInt8)}
    (stepped : world.handled setting store = some next) :
    world.handler.reads ≤ next.handler.reads := by
  unfold World.handled at stepped
  cases phase : world.handler with
  | arriving => exact Nat.zero_le _
  | catchingUp => exact Nat.zero_le _
  | refusing left outcomes => exact Nat.zero_le _
  | sampling reads objects left ends =>
    rw [phase] at stepped
    cases left with
    | nil =>
      cases stepped
      exact Nat.le_succ _
    | cons ask left =>
      cases stepped
      exact Nat.le_refl _
  | reading held left budget partition =>
    rw [phase] at stepped
    cases left with
    | nil =>
      cases stepped
      apply Nat.le_of_eq
      change _ = (world.decided setting { held with reads := held.reads + 1 }).reads
      unfold World.decided
      split
      · rfl
      · split
        · rfl
        · split <;> rfl
    | cons ask left =>
      dsimp only at stepped
      split at stepped
      · cases partition <;> (cases stepped; exact Nat.le_refl _)
      · cases stepped
        exact Nat.le_refl _
  | woken held =>
    rw [phase] at stepped
    cases stepped
    exact Nat.le_refl _
  | checking held left ends =>
    rw [phase] at stepped
    cases left with
    | nil =>
      cases stepped
      split <;> exact Nat.le_refl _
    | cons ask left =>
      cases stepped
      exact Nat.le_refl _
  | waiting held =>
    rw [phase] at stepped
    cases stepped
  | returned outcomes reads why =>
    rw [phase] at stepped
    cases stepped

theorem step_reads_le {action : Action} (stepped : world.step setting action = some next) :
    world.handler.reads ≤ next.handler.reads := by
  cases action with
  | fold entry =>
    obtain ⟨after, -, rfl⟩ := step_fold stepped
    exact Nat.le_refl _
  | announce =>
    cases step_announce stepped
    exact Nat.le_refl _
  | stop =>
    cases stepped
    exact Nat.le_refl _
  | tick =>
    cases stepped
    exact Nat.le_refl _
  | handle store => exact handled_reads_le stepped
  | caughtUp held =>
    rw [(step_caughtUp stepped).1]
    exact Nat.zero_le _
  | wake =>
    obtain ⟨held, phase, rfl⟩ := step_wake stepped
    rw [phase]
    exact Nat.le_refl _
  | expire =>
    obtain ⟨held, phase, -, rfl⟩ := step_expire stepped
    rw [phase]
    exact Nat.le_refl _
  | close =>
    obtain ⟨held, phase, -, rfl⟩ := step_close stepped
    rw [phase]
    exact Nat.le_refl _

/-- Until it reads again, a woken handler has a step to take, and not many of them. -/
theorem Roused.run (roused : Roused held commit world) (kept : world.Kept setting)
    (missed : Misses setting held.outcomes commit) {actions : List Action} {later : World}
    (ran : Steps.run (World.step setting) world actions = some later) :
    held.reads < later.handler.reads ∨ Roused held commit later ∧
      later.handler.ahead setting + actions.countP Action.handles ≤
        world.handler.ahead setting := by
  have history := Steps.run_history (fun before (mid : World) =>
    mid.Kept setting ∧ (held.reads < mid.handler.reads ∨ Roused held commit mid ∧
      mid.handler.ahead setting + before.countP Action.handles ≤ world.handler.ahead setting))
    ⟨kept, .inr ⟨roused, Nat.le_refl _⟩⟩ ?_ ran
  · exact history.2
  · intro before mid action next _ ⟨kept, so_far⟩ stepped
    refine ⟨kept.step stepped, ?_⟩
    rcases so_far with again | ⟨roused, left⟩
    · exact .inl (again.trans_le (step_reads_le stepped))
    · rcases roused.step kept missed stepped with again | ⟨roused, nearer⟩
      · exact .inl again
      · refine .inr ⟨roused, ?_⟩
        rw [List.countP_append, List.countP_singleton]
        omega

end

theorem World.Kept.reads_le (kept : world.Kept setting) :
    world.handler.reads ≤ maxReadsPerRequest := by
  have seen := kept.handler
  cases phase : world.handler with
  | arriving => exact Nat.zero_le _
  | catchingUp => exact Nat.zero_le _
  | refusing left outcomes => exact Nat.zero_le _
  | sampling reads objects left ends =>
    rw [phase] at seen
    exact seen.1.le
  | reading held left budget partition =>
    rw [phase] at seen
    obtain ⟨-, done, -, pass⟩ := seen
    exact pass.reads
  | waiting held =>
    rw [phase] at seen
    exact seen.1.reads.le
  | woken held =>
    rw [phase] at seen
    exact seen.1.reads.le
  | checking held left ends =>
    rw [phase] at seen
    exact seen.1.reads.le
  | returned outcomes reads why =>
    rw [phase] at seen
    exact seen.1

/-- What is answered though it misses a commit brings enough, or could not wait for more. -/
theorem Why.Holds.of_misses {outcomes : List PartitionOutcome} {reads : Nat} {why : Why}
    {commit : Commit} (holds : why.Holds setting world outcomes reads)
    (missed : Misses setting outcomes commit) :
    Broker.worthAnswering outcomes setting.target = true ∨
      (why = .deadline ∧ world.deadline ≤ world.now) ∨ (why = .stopped ∧ world.stopped = true) ∨
        (why = .maxReads ∧ reads = maxReadsPerRequest) := by
  obtain ⟨ask, outcome, member, -⟩ := missed
  have answered := (List.of_mem_zip member).2
  cases why with
  | nothingAsked =>
    cases (show outcomes = [] from holds)
    cases answered
  | notCaughtUp =>
    apply Or.inl
    by_contra short
    exact holds outcome answered (worthAnswering_eq_false short outcome answered)
  | worthAnswering => exact .inl holds
  | maxReads => exact .inr (.inr (.inr ⟨rfl, holds⟩))
  | deadline => exact .inr (.inl ⟨rfl, holds⟩)
  | stopped => exact .inr (.inr (.inl ⟨rfl, holds⟩))

theorem isPast_of_above {current applied : Option Nat} {version : Nat}
    (reached : AtMost version current) (above : Above applied version) :
    isPast current applied = true := by
  obtain ⟨upto, rfl, le⟩ := reached
  cases applied with
  | none => rfl
  | some applied => exact decide_eq_true ((above applied rfl).trans_le le)

structure LosesNone (setting : Setting) (world : World) : Prop where
  /-- What is yet to be folded is not announced. -/
  unannounced : ∀ entry after, world.index.apply [entry] = .ok after →
    Above world.announced entry.version
  /-- A commit that the last read has not shown lies past what the handler waits to get past. -/
  past : ∀ held, world.handler = .waiting held → ∀ commit ∈ world.commits,
    Misses setting held.outcomes commit → Above held.applied commit.version
  /-- Its announcement ends the wait, and the handler goes on to read again before it waits or
  answers. -/
  rereads : ∀ held, world.handler = .waiting held → ∀ commit ∈ world.commits,
    Misses setting held.outcomes commit → AtMost commit.version world.announced →
    ∃ woken, world.step setting .wake = some woken ∧ ∀ actions later,
      Steps.run (World.step setting) woken actions = some later →
      held.reads < later.handler.reads ∨
        actions.countP Action.handles < 2 * setting.request.asks.length + 3 ∧
        ∀ store, ∃ next, later.step setting (.handle store) = some next
  reads : world.handler.reads ≤ maxReadsPerRequest
  /-- An answer that misses an announced commit is worth giving, or there was no waiting longer. -/
  answers : ∀ outcomes reads why, world.handler = .returned outcomes reads why →
    ∀ commit ∈ world.commits, Misses setting outcomes commit →
    AtMost commit.version world.announced →
    Broker.worthAnswering outcomes setting.target = true ∨
      (why = .deadline ∧ world.deadline ≤ world.now) ∨ (why = .stopped ∧ world.stopped = true) ∨
        (why = .maxReads ∧ reads = maxReadsPerRequest)

theorem World.Kept.rereads (kept : world.Kept setting) {held : Held}
    (waits : world.handler = .waiting held) {commit : Commit} (folded : commit ∈ world.commits)
    (missed : Misses setting held.outcomes commit)
    (announced : AtMost commit.version world.announced) :
    ∃ woken, world.step setting .wake = some woken ∧ ∀ actions later,
      Steps.run (World.step setting) woken actions = some later →
      held.reads < later.handler.reads ∨
        actions.countP Action.handles < 2 * setting.request.asks.length + 3 ∧
        ∀ store, ∃ next, later.step setting (.handle store) = some next := by
  have seen := kept.handler
  rw [waits] at seen
  have wakes : world.step setting .wake = some (world.goTo (.woken held)) := by
    have past := isPast_of_above announced (seen.1.above seen.2 folded missed)
    dsimp only [World.step]
    rw [waits]
    exact if_pos past
  have roused : Roused held commit (world.goTo (.woken held)) := ⟨folded, announced, .woken⟩
  refine ⟨_, wakes, fun actions later ran => ?_⟩
  rcases roused.run (kept.step wakes) missed ran with again | ⟨roused, left⟩
  · exact .inl again
  · have ahead : (world.goTo (.woken held)).handler.ahead setting =
        2 * setting.request.asks.length + 3 := rfl
    have := roused.ahead_pos setting
    exact .inr ⟨by omega, roused.handles⟩

/-- A parked fetch loses no commit. -/
theorem parked_fetch_loses_none (setting : Setting) {actions : List Action} {world : World}
    (ran : Steps.run (World.step setting) {} actions = some world) : LosesNone setting world := by
  have kept := World.Kept.of_run ran
  have seen := kept.handler
  constructor
  case unannounced =>
    intro entry after folds
    have stepped : world.step setting (.fold entry) = some { world with
        index := after
        commits := world.commits ++ commitsOf entry after } := by
      dsimp only [World.step]
      rw [folds]
    exact (later_fold kept stepped).2.2
  case past =>
    intro held waits commit folded missed
    rw [waits] at seen
    exact seen.1.above seen.2 folded missed
  case rereads =>
    intro held waits commit folded missed announced
    exact kept.rereads waits folded missed announced
  case reads => exact kept.reads_le
  case answers =>
    intro outcomes reads why answered commit folded missed announced
    rw [answered] at seen
    exact seen.2.of_misses missed

/-- One partition of a topic whose objects are not to be had. -/
def pollOf (minBytes : Int) : Setting where
  node := {
    store := fun key _ => .error (.objectNotFound key)
    sliceRegion := fun _ _ _ => .ok []
    partitionCount := fun _ => some 1
    topicNameById := fun _ => none }
  authz := ⟨none, false, []⟩
  version := 11
  request := ⟨⟨1000, [⟨some "t", 0, [⟨0, 0, 1000⟩]⟩]⟩, 100, minBytes⟩

/-- The handler's steps up to the end of its first read. -/
def firstRead : List Action :=
  let handle : Action := .handle fun key _ => .error (.objectNotFound key)
  [handle, .caughtUp true, handle, handle, handle, handle, handle]

def twoMore : MetadataEntry := ⟨0, .batchCommitted ⟨"a"⟩ [⟨⟨"t"⟩, 0, 2, .full, none⟩] 5⟩

theorem parked_fetch_loses_none_hungry : ∃ world woken,
    Steps.run (World.step (pollOf 1)) {} (firstRead ++ [.handle fun _ _ => .ok [], .fold twoMore,
      .announce]) = some world ∧ world.step (pollOf 1) .wake = some woken := by
  have ran : ∃ world, Steps.run (World.step (pollOf 1)) {} (firstRead ++ [.handle fun _ _ => .ok [],
      .fold twoMore, .announce]) = some world := ⟨_, rfl⟩
  obtain ⟨world, ran⟩ := ran
  have waits : ∃ held, world.handler = .waiting held ∧ Misses (pollOf 1) held.outcomes
      ⟨0, (⟨"t"⟩, 0), 2⟩ := by
    cases ran
    exact ⟨_, rfl, ⟨⟨some "t", 0, [⟨0, 0, 1000⟩]⟩, ⟨0, 0, 1000⟩⟩, _, .head _, rfl, by decide⟩
  obtain ⟨held, waits, missed⟩ := waits
  have folded : ⟨0, (⟨"t"⟩, 0), 2⟩ ∈ world.commits := by
    cases ran
    exact .head _
  have announced : AtMost 0 world.announced := by
    cases ran
    exact ⟨0, rfl, Nat.le_refl _⟩
  obtain ⟨woken, wakes, -⟩ := (parked_fetch_loses_none (pollOf 1) ran).rereads held waits _ folded
    missed announced
  exact ⟨world, woken, ran, wakes⟩

/-- A fetch that asks for nothing at least is answered though a commit was announced meanwhile:
in time, with the coordinator running, after one read. -/
theorem parked_fetch_cut_short : ∃ world outcomes commit,
    Steps.run (World.step (pollOf 0)) {} (firstRead ++ [.fold twoMore, .announce,
      .handle fun _ _ => .ok []]) = some world ∧
    world.handler = .returned outcomes 1 .worthAnswering ∧ commit ∈ world.commits ∧
    Misses (pollOf 0) outcomes commit ∧ AtMost commit.version world.announced ∧
    world.now < world.deadline ∧ world.stopped = false ∧ 1 < maxReadsPerRequest := by
  refine ⟨_, _, ⟨0, (⟨"t"⟩, 0), 2⟩, rfl, rfl, .head _, ?_, ⟨0, rfl, Nat.le_refl _⟩, by decide, rfl,
    by decide⟩
  exact ⟨⟨⟨some "t", 0, [⟨0, 0, 1000⟩]⟩, ⟨0, 0, 1000⟩⟩, _, .head _, rfl, by decide⟩

end Broker.Park

end Oqueue
