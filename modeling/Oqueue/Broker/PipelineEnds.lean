import Oqueue.Broker.Pipeline

/-!
# What a connection still owes, and what its end says

Of the requests that were read no more are unanswered than there are permits, and two. A
connection that ends well has handled every whole frame that arrived and has written every
response, unless a handler chose to close it.
-/

namespace Oqueue.Connection

open Bytes Codec Checked

/-- How far the writer is behind what it has taken from the channel. -/
def Writer.Owes (expected answered : Nat) : Writer → Prop
  | receiving | flushing .drained | ended (.ok .drained) => expected ≤ answered
  | _ => expected ≤ answered + 1

theorem Writer.Owes.le {writer : Writer} {expected answered : Nat}
    (owes : writer.Owes expected answered) : expected ≤ answered + 1 := by
  unfold Writer.Owes at owes
  split at owes
  · exact Nat.le_succ_of_le owes
  · exact Nat.le_succ_of_le owes
  · exact Nat.le_succ_of_le owes
  · exact owes

/-- The frames that were read whole: those with a task, and the one that waits for a permit. -/
def World.read (world : World) : Nat :=
  world.tasks.length + match world.reader with
    | .acquiring _ => 1
    | _ => 0

namespace World

variable {limits : ConnectionLimits} {world next : World}

/-- So many responses have left whole; the writer has taken one more at most. -/
def Answered (world : World) : Prop := ∃ answered, Known world.tasks answered ∧
  wired world.tasks answered <+: world.outbound ∧ world.writer.Owes world.expected answered

theorem Answered.of_tasks (answered : world.Answered) (writer : next.writer = world.writer)
    (expected : next.expected = world.expected) (outbound : next.outbound = world.outbound)
    (same : ∀ count, Known world.tasks count → Known next.tasks count ∧
      wired next.tasks count = wired world.tasks count) : next.Answered := by
  obtain ⟨count, known, left, owes⟩ := answered
  obtain ⟨known', same⟩ := same count known
  refine ⟨count, known', ?_, ?_⟩
  · rw [same, outbound]
    exact left
  · rw [writer, expected]
    exact owes

theorem Answered.same (answered : world.Answered) (writer : next.writer = world.writer)
    (expected : next.expected = world.expected) (outbound : next.outbound = world.outbound)
    (tasks : next.tasks = world.tasks) : next.Answered :=
  answered.of_tasks writer expected outbound (by rw [tasks]; exact fun _ known => ⟨known, rfl⟩)

theorem Answered.write (answered : world.Answered) {writer : Writer}
    (owes : ∀ count, world.writer.Owes world.expected count → writer.Owes world.expected count) :
    Answered { world with writer } := by
  obtain ⟨count, known, left, owes'⟩ := answered
  exact ⟨count, known, left, owes count owes'⟩

theorem Answered.finish (answered : world.Answered) {task : Nat} {outcome : Outcome}
    (stepped : world.finish task outcome = some next) : next.Answered := by
  obtain ⟨one, there, stepped⟩ := Option.bind_eq_some_iff.mp stepped
  split at stepped
  · rename_i running
    cases stepped
    refine answered.of_tasks rfl rfl rfl fun count known => ?_
    have after := known.le_of_running there running
    exact ⟨known.set after _, wired_set after _⟩
  · cases stepped

theorem Answered.receive (answered : world.Answered) (stepped : world.receive = some next) :
    next.Answered := by
  unfold World.receive at stepped
  split at stepped
  swap
  · cases stepped
  rename_i receiving
  obtain ⟨count, known, left, owes⟩ := answered
  rw [receiving] at owes
  split at stepped
  · split at stepped
    · cases stepped
      exact ⟨count, known, left, Nat.succ_le_succ owes⟩
    · cases stepped
      exact ⟨count, known, left, Nat.le_succ_of_le owes⟩
  · split at stepped
    · cases stepped
      exact ⟨count, known, left, owes⟩
    · cases stepped

theorem Answered.join (answered : world.Answered) (kept : world.Kept limits)
    (stepped : world.join = some next) : next.Answered := by
  unfold World.join at stepped
  split at stepped
  swap
  · cases stepped
  rename_i task joining
  have onwards {writer : Writer} (owes : ∀ count, world.expected ≤ count + 1 →
      writer.Owes world.expected count) : Answered { world with writer } := by
    refine answered.write fun count owes' => ?_
    exact owes count owes'.le
  obtain ⟨one, there, stepped⟩ := Option.bind_eq_some_iff.mp stepped
  split at stepped
  · cases stepped
  · cases stepped
    exact onwards fun _ le => le
  · rename_i silent
    cases stepped
    obtain ⟨count, known, -, stands⟩ := kept.wrote
    rw [joining] at stands
    obtain ⟨rfl, whole⟩ := stands
    obtain ⟨known', text⟩ :=
      known.succ there (show one.outcome.written = some [] by rw [silent]; rfl)
    refine ⟨count + 1, known', ?_, (kept.numbered.joining count joining).ge⟩
    dsimp only
    rw [text, List.append_nil, whole]
  · cases stepped
    exact onwards fun _ le => le
  · split at stepped
    · cases stepped
      exact onwards fun _ le => le
    · cases stepped
      exact onwards fun _ le => le

theorem Answered.writes (answered : world.Answered) (kept : world.Kept limits) {taken : Nat}
    (stepped : world.write taken = some next) : next.Answered := by
  unfold World.write at stepped
  split at stepped
  swap
  · cases stepped
  rename_i left writing
  split at stepped
  swap
  · cases stepped
  obtain ⟨count, known, before, owes⟩ := answered
  cases stepped
  by_cases all : taken = left.length
  · obtain ⟨count, known, -, stands⟩ := kept.wrote
    rw [writing] at stands
    obtain ⟨rfl, text⟩ := stands
    refine ⟨_, known, ?_, ?_⟩
    · dsimp only
      rw [← text, all, List.take_length]
    · dsimp only
      rw [if_pos all]
      exact Nat.le_refl _
  · refine ⟨count, known, before.trans (List.prefix_append ..), ?_⟩
    dsimp only
    rw [if_neg all]
    exact owes.le

/-- What a reader's step leaves alone. -/
structure Reads (world next : World) : Prop where
  writer : next.writer = world.writer
  expected : next.expected = world.expected
  outbound : next.outbound = world.outbound
  tasks : next.tasks = world.tasks

theorem reads_readSize (stepped : world.readSize limits = some next) : world.Reads next := by
  unfold World.readSize at stepped
  split at stepped
  swap
  · cases stepped
  split at stepped
  · dsimp only at stepped
    split at stepped
    · cases stepped
      exact ⟨rfl, rfl, rfl, rfl⟩
    · split at stepped <;> cases stepped <;> exact ⟨rfl, rfl, rfl, rfl⟩
  · split at stepped <;> cases stepped
    exact ⟨rfl, rfl, rfl, rfl⟩

theorem reads_readBody (stepped : world.readBody = some next) : world.Reads next := by
  unfold World.readBody at stepped
  split at stepped
  swap
  · cases stepped
  split at stepped
  · cases stepped
    exact ⟨rfl, rfl, rfl, rfl⟩
  · split at stepped <;> cases stepped
    exact ⟨rfl, rfl, rfl, rfl⟩

theorem reads_readTimesOut (stepped : world.readTimesOut = some next) : world.Reads next := by
  unfold World.readTimesOut at stepped
  split at stepped <;> cases stepped <;> exact ⟨rfl, rfl, rfl, rfl⟩

theorem reads_readFails {error : IoError} (stepped : world.readFails error = some next) :
    world.Reads next := by
  unfold World.readFails at stepped
  split at stepped
  · split at stepped <;> cases stepped
    exact ⟨rfl, rfl, rfl, rfl⟩
  · cases stepped
    exact ⟨rfl, rfl, rfl, rfl⟩
  · cases stepped

theorem reads_send (stepped : world.send limits = some next) : world.Reads next := by
  unfold World.send at stepped
  split at stepped
  swap
  · cases stepped
  split at stepped
  · cases stepped
    exact ⟨rfl, rfl, rfl, rfl⟩
  · split at stepped <;> cases stepped
    exact ⟨rfl, rfl, rfl, rfl⟩

theorem reads_selectReader (stepped : world.selectReader = some next) : world.Reads next := by
  unfold World.selectReader at stepped
  split at stepped
  · split at stepped <;> cases stepped <;> exact ⟨rfl, rfl, rfl, rfl⟩
  · cases stepped

theorem reads_selectWriter (stepped : world.selectWriter = some next) : world.Reads next := by
  unfold World.selectWriter at stepped
  split at stepped
  · split at stepped <;> cases stepped <;> exact ⟨rfl, rfl, rfl, rfl⟩
  · cases stepped

theorem reads_settle (stepped : world.settle = some next) : world.Reads next := by
  unfold World.settle at stepped
  split at stepped
  · split at stepped <;> cases stepped <;> exact ⟨rfl, rfl, rfl, rfl⟩
  · split at stepped <;> cases stepped <;> exact ⟨rfl, rfl, rfl, rfl⟩
  · cases stepped

theorem Answered.reads (answered : world.Answered) (reads : world.Reads next) : next.Answered :=
  answered.same reads.writer reads.expected reads.outbound reads.tasks

theorem Answered.step (answered : world.Answered) (kept : world.Kept limits) {action : Action}
    (stepped : world.step limits action = some next) : next.Answered := by
  cases action with
  | arrive bytes =>
    simp only [World.step] at stepped
    split at stepped <;> cases stepped
    exact answered.same rfl rfl rfl rfl
  | peerCloses =>
    cases stepped
    exact answered.same rfl rfl rfl rfl
  | readSize => exact answered.reads (reads_readSize stepped)
  | readBody => exact answered.reads (reads_readBody stepped)
  | readTimesOut => exact answered.reads (reads_readTimesOut stepped)
  | readFails error => exact answered.reads (reads_readFails stepped)
  | acquire =>
    simp only [World.step, World.acquire] at stepped
    split at stepped
    · split at stepped <;> cases stepped
      exact answered.of_tasks rfl rfl rfl fun _ known => ⟨known.append _, wired_append known _⟩
    · cases stepped
  | send => exact answered.reads (reads_send stepped)
  | finish task response => exact answered.finish stepped
  | panic task => exact answered.finish stepped
  | receive => exact answered.receive stepped
  | join => exact answered.join kept stepped
  | write count => exact answered.writes kept stepped
  | writeTimesOut =>
    simp only [World.step, World.writeTimesOut] at stepped
    split at stepped <;> cases stepped
    exact answered.write fun count owes => owes.le
  | flush =>
    simp only [World.step, World.flush] at stepped
    split at stepped <;> cases stepped
    rename_i end_ flushing
    refine answered.write fun count owes => ?_
    rw [flushing] at owes
    cases end_ <;> exact owes
  | writeFails error =>
    simp only [World.step, World.writeFails] at stepped
    split at stepped <;> cases stepped <;> exact answered.write fun count owes => owes.le
  | selectReader => exact answered.reads (reads_selectReader stepped)
  | selectWriter => exact answered.reads (reads_selectWriter stepped)
  | settle => exact answered.reads (reads_settle stepped)
  | drop =>
    simp only [World.step] at stepped
    split at stepped <;> cases stepped
    exact answered.same rfl rfl rfl rfl
  | abortReader =>
    simp only [World.step] at stepped
    split at stepped <;> cases stepped
    exact answered.same rfl rfl rfl rfl
  | abortWriter =>
    simp only [World.step] at stepped
    split at stepped <;> cases stepped
    exact answered.write fun count owes => owes.le

theorem Answered.start : World.Answered {} :=
  ⟨0, ⟨le_rfl, fun _ among => absurd among List.not_mem_nil⟩, List.prefix_rfl, Nat.le_refl 0⟩

/-- What was read and is not answered is within the permits and two: the response that is on its
way, and the frame that waits for a permit or for room in the channel. -/
theorem Numbered.owed (numbered : world.Numbered limits) {answered : Nat}
    (owes : world.writer.Owes world.expected answered) :
    world.read ≤ answered + limits.inFlight + 2 := by
  have room := numbered.room
  have behind := owes.le
  unfold World.read
  rcases numbered.counted with whole | ⟨more, sending | aborted | ⟨gone, -⟩⟩
  · split <;> omega
  · rw [sending]
    dsimp only
    omega
  · rw [aborted]
    dsimp only
    omega
  · split
    · rename_i acquiring
      rw [acquiring] at gone
      cases gone
    · omega

/-- What was written is, in every run, a beginning of the responses in the order of the requests,
and the requests are the frames that arrived. A connection that ends well has handled all of them
and has written every response, unless a handler closed it; then it has written every response
before that one. -/
theorem pipeline_ordered {actions : List Action}
    (ran : Steps.run (World.step limits) {} actions = some world) :
    (∃ rest, world.received = world.tasks.flatMap (fun task => frame task.request) ++ rest ∧
      (∀ task ∈ world.tasks, task.request.length ≤ limits.maxFrame) ∧
      (world.main = .returned (.ok ()) →
        StopsAt world.tasks (.responded .close) ∨
        rest.length < 4 ∧ world.closed = true ∧
          ∀ task ∈ world.tasks, task.outcome.written.isSome)) ∧
    world.outbound <+: wire world.tasks ∧
    world.running ≤ limits.inFlight ∧
    (∃ answered, Known world.tasks answered ∧ wired world.tasks answered <+: world.outbound ∧
      world.read ≤ answered + limits.inFlight + 2) ∧
    (world.main = .returned (.ok ()) ∨ world.main = .returned (.error .handlerPanicked) →
      world.outbound = wire world.tasks) ∧
    (world.main = .returned (.error .handlerPanicked) → StopsAt world.tasks .panicked) ∧
    world.main ≠ .returned (.error .connectionTaskFailed) := by
  obtain ⟨kept, answered⟩ : world.Kept limits ∧ world.Answered :=
    Steps.run_invariant (fun world => world.Kept limits ∧ world.Answered)
      (fun _ _ _ held stepped => ⟨held.1.step stepped, held.2.step held.1 stepped⟩)
      ⟨.start, .start⟩ ran
  obtain ⟨⟨held, framed, holds⟩, small, -⟩ := kept.framed
  have numbered := kept.numbered
  refine ⟨⟨held ++ world.inbound, framed, small, fun is => ?_⟩, ?_, numbered.running, ?_, ?_, ?_,
    kept.ending.sound⟩
  · rcases kept.ending.ok is with closed | ⟨read, drained⟩
    · exact .inl (kept.stopped closed (.inl ⟨rfl, rfl⟩)).2
    · rw [read] at holds
      obtain rfl : held = [] := holds
      obtain ⟨-, each, few, closed⟩ := kept.finished read drained
      exact .inr ⟨few, closed, each⟩
  · obtain ⟨count, known, among, -⟩ := kept.wrote
    exact among.trans known.prefix_wire
  · obtain ⟨count, known, left, owes⟩ := answered
    exact ⟨count, known, left, numbered.owed owes⟩
  · rintro (is | is)
    · rcases kept.ending.ok is with closed | ⟨read, drained⟩
      · exact (kept.stopped closed (.inl ⟨rfl, rfl⟩)).1
      · exact (kept.finished read drained).1
    · exact (kept.stopped (kept.ending.panicked is) (.inr ⟨rfl, rfl⟩)).1
  · intro is
    exact (kept.stopped (kept.ending.panicked is) (.inr ⟨rfl, rfl⟩)).2

/-- Two requests, of which the second is handled first. -/
def overtakingRun : List Action :=
  [.arrive [0, 0, 0, 1, 7, 0, 0, 0, 1, 8], .readSize, .readBody, .acquire, .send, .readSize,
    .readBody, .acquire, .send, .finish 1 (.reply [2]), .receive, .finish 0 (.reply [1]), .join,
    .write 3, .write 2, .peerCloses, .readSize, .selectReader, .receive, .join, .write 5, .receive,
    .flush, .settle]

theorem pipeline_ordered_overtaking : ∃ world,
    Steps.run (World.step ⟨100, 2⟩) {} overtakingRun = some world ∧
      world.main = .returned (.ok ()) ∧ world.outbound = wire world.tasks ∧
      world.outbound = [0, 0, 0, 1, 1, 0, 0, 0, 1, 2] := by
  have ends : (Steps.run (World.step ⟨100, 2⟩) {} overtakingRun).map (fun world =>
      (world.main, world.outbound)) =
      some (.returned (.ok ()), [0, 0, 0, 1, 1, 0, 0, 0, 1, 2]) := by
    decide +kernel
  obtain ⟨world, ran, ends⟩ := Option.map_eq_some_iff.mp ends
  obtain ⟨main, outbound⟩ := Prod.mk.inj ends
  obtain ⟨-, -, -, -, whole, -⟩ := pipeline_ordered ran
  exact ⟨world, ran, main, whole (.inl main), outbound⟩

end World

end Oqueue.Connection
