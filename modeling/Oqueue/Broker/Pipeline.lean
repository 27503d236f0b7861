import Oqueue.Broker.Connection
import Oqueue.Library.Format

/-!
# Responses leave a connection in the order of its requests

What is written is, at any time, some of the responses in the order of the requests and nothing
else. The tasks are joined in the order in which the frames were read, and the frames that were
read are all that arrived.
-/

namespace Oqueue.Connection

open Bytes Codec Checked

def Writer.Lost (writer : Writer) : Prop := writer.gone = true ∧ writer ≠ .ended (.ok .drained)

/-- What a reader has taken from the stream and not handed on. -/
def Reader.Holds (maxFrame : Nat) : Reader → List UInt8 → Prop
  | sizing, held | sending .., held | ended (.ok ()), held => held = []
  | body size, held => held = putI32 size ∧ size ≤ maxFrame ∧ size < 2 ^ 31
  | acquiring request, held => held = frame request ∧ request.length ≤ maxFrame
  | ended (.error _), _ | aborted, _ => True

def Known (tasks : List Task) (count : Nat) : Prop :=
  count ≤ tasks.length ∧ ∀ task ∈ tasks.take count, task.outcome.written.isSome

/-- Some task came to this end, and every response before its own is there to be written. -/
def StopsAt (tasks : List Task) (outcome : Outcome) : Prop := ∃ k task, tasks[k]? = some task ∧
  task.outcome = outcome ∧ ∀ earlier ∈ tasks.take k, earlier.outcome.written.isSome

def wired (tasks : List Task) (count : Nat) : List UInt8 := wire (tasks.take count)

def Writer.Stands (expected count : Nat) (outbound text : List UInt8) (outcome : Option Outcome) :
    Writer → Prop
  | receiving | flushing .drained | ended (.ok .drained) => count = expected ∧ outbound = text
  | joining task => count = task ∧ outbound = text
  | writing left => count = expected ∧ outbound ++ left = text
  | flushing .handlerClosed | ended (.ok .handlerClosed) =>
    outcome = some (.responded .close) ∧ outbound = text
  | ended (.error .handlerPanicked) => outcome = some .panicked ∧ outbound = text
  | ended (.error _) | panicked | aborted => True

namespace World

/-- Everything that arrived is with a task, with the reader or unread. -/
structure Framed (limits : ConnectionLimits) (world : World) : Prop where
  framed : ∃ held, world.received =
    world.tasks.flatMap (fun task => frame task.request) ++ (held ++ world.inbound) ∧
      world.reader.Holds limits.maxFrame held
  small : ∀ task ∈ world.tasks, task.request.length ≤ limits.maxFrame
  clean : world.reader = .ended (.ok ()) →
    world.writer.Lost ∨ world.inbound.length < 4 ∧ world.closed = true

/-- The tasks are numbered as they were read, and joined in that order. -/
structure Numbered (limits : ConnectionLimits) (world : World) : Prop where
  expected_le : world.expected ≤ world.sequence
  done : world.done = (List.range' world.expected (world.sequence - world.expected)).map
    fun i => (i, i)
  room : world.sequence ≤ world.expected + limits.inFlight
  counted : world.tasks.length = world.sequence ∨ world.tasks.length = world.sequence + 1 ∧
    (world.reader = .sending world.sequence world.sequence ∨ world.reader = .aborted ∨
      world.reader.gone = true ∧ world.writer.Lost)
  sending : ∀ sequence task, world.reader = .sending sequence task →
    sequence = world.sequence ∧ task = world.sequence ∧ world.tasks.length = world.sequence + 1
  joining : ∀ task, world.writer = .joining task → task + 1 = world.expected
  drained : world.writer = .flushing .drained ∨ world.writer = .ended (.ok .drained) →
    world.reader.gone = true ∧ world.expected = world.sequence
  sound : world.writer ≠ .panicked
  running : world.running ≤ limits.inFlight

/-- What is on the wire: the results of the first `count` tasks, as far as they are written. -/
def Wrote (world : World) : Prop := ∃ count, Known world.tasks count ∧
  world.outbound <+: wired world.tasks count ∧
  world.writer.Stands world.expected count world.outbound (wired world.tasks count)
    ((world.tasks[count]?).map Task.outcome)

structure Ending (main : Main) (reader : Reader) (writer : Writer) : Prop where
  unaborted : main.over = false → reader ≠ .aborted ∧ writer ≠ .aborted
  awaitingWriter : ∀ read, main = .awaitingWriter read → reader = .ended read
  awaitingReader : main = .awaitingReader → writer = .ended (.ok .drained)
  returned : ∀ result, main = .returned result →
    writer = .ended (.ok .handlerClosed) ∧ result = .ok () ∨
    (∃ e, writer = .ended (.error e) ∧ result = .error e) ∨
    ∃ read write, reader = .ended read ∧ writer = .ended write ∧
      result = read.bind fun _ => write.map fun _ => ()
  reads : ∀ e, reader = .ended (.error e) → e ≠ .handlerPanicked ∧ e ≠ .connectionTaskFailed
  writes : ∀ e, writer = .ended (.error e) → e ≠ .connectionTaskFailed

structure Kept (limits : ConnectionLimits) (world : World) : Prop where
  framed : world.Framed limits
  numbered : world.Numbered limits
  wrote : world.Wrote
  ending : Ending world.main world.reader world.writer

end World

section
variable {tasks : List Task} {count : Nat} {task : Task}

theorem Known.append (known : Known tasks count) (more : List Task) :
    Known (tasks ++ more) count := by
  refine ⟨known.1.trans (by simp), ?_⟩
  rw [List.take_append_of_le_length known.1]
  exact known.2

theorem wired_append (known : Known tasks count) (more : List Task) :
    wired (tasks ++ more) count = wired tasks count := by
  unfold wired
  rw [List.take_append_of_le_length known.1]

theorem Known.le_of_running (known : Known tasks count) {i : Nat} (there : tasks[i]? = some task)
    (running : task.outcome = .running) : count ≤ i := by
  by_contra before
  have among : task ∈ tasks.take count :=
    List.mem_of_getElem? ((List.getElem?_take_of_lt (Nat.not_le.mp before)).trans there)
  have some_ := known.2 task among
  rw [running] at some_
  cases some_

theorem Known.set (known : Known tasks count) {i : Nat} (after : count ≤ i) (task : Task) :
    Known (tasks.set i task) count := by
  refine ⟨known.1.trans (List.length_set ..).ge, ?_⟩
  rw [List.take_set_of_le after]
  exact known.2

theorem wired_set {i : Nat} (after : count ≤ i) (task : Task) :
    wired (tasks.set i task) count = wired tasks count := by
  unfold wired
  rw [List.take_set_of_le after]

theorem Known.succ (known : Known tasks count) (there : tasks[count]? = some task)
    {out : List UInt8} (written : task.outcome.written = some out) :
    Known tasks (count + 1) ∧ wired tasks (count + 1) = wired tasks count ++ out := by
  have grown : tasks.take (count + 1) = tasks.take count ++ [task] := by
    rw [List.take_add_one, there]
    rfl
  refine ⟨⟨(List.getElem?_eq_some_iff.mp there).1, ?_⟩, ?_⟩
  · intro other among
    rw [grown] at among
    rcases List.mem_append.mp among with before | last
    · exact known.2 other before
    · rw [List.mem_singleton.mp last, written]
      rfl
  · unfold wired wire
    rw [grown, Sequenced.emitted_append known.2]
    simp [Sequenced.emitted, written]

theorem Known.prefix_wire (known : Known tasks count) : wired tasks count <+: wire tasks :=
  Sequenced.emitted_take_prefix known.2

theorem Known.eq_wire (known : Known tasks count)
    (stops : ∀ task, tasks[count]? = some task → task.outcome.written = none) :
    wired tasks count = wire tasks := by
  unfold wired wire
  conv_rhs => rw [← List.take_append_drop count tasks, Sequenced.emitted_append known.2]
  cases left : tasks.drop count with
  | nil => exact (List.append_nil _).symm
  | cons task rest =>
    have there : tasks[count]? = some task := by
      rw [← List.head?_drop, left]
      rfl
    rw [Sequenced.emitted_of_none (fun task : Task => task.outcome.written) (stops task there),
      List.append_nil]

end

theorem Writer.Stands.later {writer : Writer} {expected count : Nat} {outbound text : List UInt8}
    {outcome later : Option Outcome} (stands : writer.Stands expected count outbound text outcome)
    (ended : outcome = some (.responded .close) ∨ outcome = some .panicked → later = outcome) :
    writer.Stands expected count outbound text later := by
  unfold Writer.Stands at stands ⊢
  split at stands
  case h_6 | h_7 => exact ⟨(ended (.inl stands.1)).trans stands.1, stands.2⟩
  case h_8 => exact ⟨(ended (.inr stands.1)).trans stands.1, stands.2⟩
  all_goals exact stands

namespace World

variable {limits : ConnectionLimits} {world next : World}

/-- The writer and what it wrote stay. -/
theorem Wrote.of_tasks (wrote_ : world.Wrote) (writer : next.writer = world.writer)
    (expected : next.expected = world.expected) (outbound : next.outbound = world.outbound)
    (same : ∀ count, Known world.tasks count → Known next.tasks count ∧
      wired next.tasks count = wired world.tasks count)
    (ended : ∀ (count : Nat) (task : Task), world.tasks[count]? = some task →
      task.outcome ≠ .running → next.tasks[count]? = some task) : next.Wrote := by
  obtain ⟨count, known, prefix_, stands⟩ := wrote_
  obtain ⟨known', same⟩ := same count known
  refine ⟨count, known', ?_, ?_⟩
  · rw [outbound, same]
    exact prefix_
  · rw [writer, expected, outbound, same]
    refine stands.later fun is => ?_
    cases there : world.tasks[count]? with
    | none => rw [there] at is; cases is <;> contradiction
    | some task =>
      rw [ended count task there]
      rw [there] at is
      rintro running
      rw [Option.map_some, running] at is
      cases is <;> contradiction

theorem Wrote.same (wrote_ : world.Wrote) (writer : next.writer = world.writer)
    (expected : next.expected = world.expected) (outbound : next.outbound = world.outbound)
    (tasks : next.tasks = world.tasks) : next.Wrote :=
  wrote_.of_tasks writer expected outbound (by rw [tasks]; exact fun _ known => ⟨known, rfl⟩)
    (by rw [tasks]; exact fun _ _ there _ => there)

theorem Numbered.whole (numbered : world.Numbered limits) (going : world.reader.gone = false)
    (calm : ∀ sequence task, world.reader ≠ .sending sequence task) :
    world.tasks.length = world.sequence := by
  rcases numbered.counted with whole | ⟨-, sending | aborted | ⟨gone, -⟩⟩
  · exact whole
  · exact absurd sending (calm _ _)
  · rw [aborted] at going
    cases going
  · rw [going] at gone
    cases gone

theorem Ending.read {main : Main} {reader : Reader} {writer : Writer}
    (ending : Ending main reader writer) (going : reader.gone = false) {reader' : Reader}
    (unaborted : reader' ≠ .aborted) (reads : ∀ e, reader' = .ended (.error e) →
      e ≠ .handlerPanicked ∧ e ≠ .connectionTaskFailed) : Ending main reader' writer := by
  have ungone {read} : reader ≠ .ended read := by
    rintro rfl
    cases going
  refine ⟨fun on => ⟨unaborted, (ending.unaborted on).2⟩,
    fun read awaits => absurd (ending.awaitingWriter read awaits) ungone,
    ending.awaitingReader, fun result is => ?_, reads, ending.writes⟩
  rcases ending.returned result is with closed | failed | ⟨read, write, ended, -⟩
  · exact .inl closed
  · exact .inr (.inl failed)
  · exact absurd ended ungone

theorem Kept.read (kept : world.Kept limits) (going : world.reader.gone = false)
    (calm : ∀ sequence task, world.reader ≠ .sending sequence task) {reader : Reader}
    {inbound : List UInt8} (calm' : ∀ sequence task, reader ≠ .sending sequence task)
    (unaborted : reader ≠ .aborted)
    (reads : ∀ e, reader = .ended (.error e) → e ≠ .handlerPanicked ∧ e ≠ .connectionTaskFailed)
    (framed : Framed limits { world with reader, inbound }) :
    Kept limits { world with reader, inbound } := by
  have numbered := kept.numbered
  refine ⟨framed, ?_, kept.wrote.same rfl rfl rfl rfl, kept.ending.read going unaborted reads⟩
  refine ⟨numbered.expected_le, numbered.done, numbered.room, .inl (numbered.whole going calm),
    fun s t is => absurd is (calm' s t), numbered.joining, fun is => ?_, numbered.sound,
    numbered.running⟩
  rw [(numbered.drained is).1] at going
  cases going

theorem putI32_of_be {bytes : List UInt8} (four : bytes.length = 4) {declared : Int}
    (reads : castSigned 32 (fromBeBytes bytes) = declared) : putI32 declared = bytes := by
  have small : fromBeBytes bytes < 2 ^ 32 := by
    have below := Format.fromBeBytes_lt bytes
    rwa [four] at below
  unfold putI32
  rw [← reads, Format.castUnsigned_castSigned, Nat.mod_eq_of_lt small,
    Format.toBeBytes_of_length four]

theorem Kept.readSize (kept : world.Kept limits) (stepped : world.readSize limits = some next) :
    next.Kept limits := by
  unfold World.readSize at stepped
  split at stepped
  swap
  · cases stepped
  rename_i sizing
  have going : world.reader.gone = false := by
    rw [sizing]
    rfl
  have calm (sequence task : Nat) : world.reader ≠ .sending sequence task := by
    rw [sizing]
    rintro ⟨⟩
  obtain ⟨⟨held, framed, holds⟩, small, clean⟩ := kept.framed
  rw [sizing] at holds
  obtain rfl : held = [] := holds
  split at stepped
  · rename_i enough
    have four : (world.inbound.take 4).length = 4 := by simp [enough]
    have split_ := List.take_append_drop 4 world.inbound
    have framed' : world.received = world.tasks.flatMap (fun task => frame task.request) ++
        (world.inbound.take 4 ++ world.inbound.drop 4) := by
      rw [split_]
      exact framed
    dsimp only at stepped
    split at stepped
    · cases stepped
      refine kept.read going calm (by rintro _ _ ⟨⟩) (by rintro ⟨⟩)
        (by rintro _ ⟨⟩; exact ⟨by rintro ⟨⟩, by rintro ⟨⟩⟩) ⟨⟨_, framed', trivial⟩, small, ?_⟩
      rintro ⟨⟩
    · rename_i positive
      split at stepped
      · cases stepped
        refine kept.read going calm (by rintro _ _ ⟨⟩) (by rintro ⟨⟩)
          (by rintro _ ⟨⟩; exact ⟨by rintro ⟨⟩, by rintro ⟨⟩⟩) ⟨⟨_, framed', trivial⟩, small, ?_⟩
        rintro ⟨⟩
      · rename_i fits
        cases stepped
        have declared : ((castSigned 32 (fromBeBytes (world.inbound.take 4))).toNat : Int) =
            castSigned 32 (fromBeBytes (world.inbound.take 4)) :=
          Int.toNat_of_nonneg (Int.not_lt.mp positive)
        have below := Bytes.castSigned_lt 32 (fromBeBytes (world.inbound.take 4))
        refine kept.read going calm (by rintro _ _ ⟨⟩) (by rintro ⟨⟩) (by rintro _ ⟨⟩)
          ⟨⟨_, framed', ?_, Nat.not_lt.mp fits, by omega⟩, small, ?_⟩
        · rw [declared]
          exact (putI32_of_be four rfl).symm
        · rintro ⟨⟩
  · rename_i few
    split at stepped
    · rename_i closed
      cases stepped
      refine kept.read going calm (by rintro _ _ ⟨⟩) (by rintro ⟨⟩) (by rintro _ ⟨⟩)
        ⟨⟨[], framed, rfl⟩, small, ?_⟩
      exact fun _ => .inr ⟨Nat.not_le.mp few, closed⟩
    · cases stepped

theorem Kept.readBody (kept : world.Kept limits) (stepped : world.readBody = some next) :
    next.Kept limits := by
  unfold World.readBody at stepped
  split at stepped
  swap
  · cases stepped
  rename_i size reading
  have going : world.reader.gone = false := by
    rw [reading]
    rfl
  have calm (sequence task : Nat) : world.reader ≠ .sending sequence task := by
    rw [reading]
    rintro ⟨⟩
  obtain ⟨⟨held, framed, holds⟩, small, clean⟩ := kept.framed
  rw [reading] at holds
  obtain ⟨rfl, bounded, -⟩ := holds
  split at stepped
  · rename_i enough
    cases stepped
    have length : (world.inbound.take size).length = size := List.length_take_of_le enough
    refine kept.read going calm (by rintro _ _ ⟨⟩) (by rintro ⟨⟩) (by rintro _ ⟨⟩)
      ⟨⟨frame (world.inbound.take size), ?_, rfl, by rwa [length]⟩, small, by rintro ⟨⟩⟩
    dsimp only
    rw [framed, frame, length, List.append_assoc (putI32 size), List.take_append_drop]
  · split at stepped
    · cases stepped
      exact kept.read going calm (by rintro _ _ ⟨⟩) (by rintro ⟨⟩)
        (by rintro _ ⟨⟩; exact ⟨by rintro ⟨⟩, by rintro ⟨⟩⟩)
        ⟨⟨_, framed, trivial⟩, small, by rintro ⟨⟩⟩
    · cases stepped

theorem Kept.readEnds (kept : world.Kept limits)
    (waits : world.reader = .sizing ∨ ∃ size, world.reader = .body size) {e : ConnectionEnd}
    (its : e ≠ .handlerPanicked ∧ e ≠ .connectionTaskFailed) :
    Kept limits { world with reader := .ended (.error e) } := by
  obtain ⟨⟨held, framed, -⟩, small, -⟩ := kept.framed
  refine kept.read ?_ ?_ (by rintro _ _ ⟨⟩) (by rintro ⟨⟩) (by rintro _ ⟨⟩; exact its)
    ⟨⟨held, framed, trivial⟩, small, by rintro ⟨⟩⟩
  · rcases waits with is | ⟨size, is⟩ <;> rw [is] <;> rfl
  · intro sequence task
    rcases waits with is | ⟨size, is⟩ <;> rw [is] <;> rintro ⟨⟩

theorem Kept.acquire (kept : world.Kept limits) (stepped : world.acquire limits = some next) :
    next.Kept limits := by
  unfold World.acquire at stepped
  split at stepped
  swap
  · cases stepped
  rename_i request acquiring
  split at stepped
  swap
  · cases stepped
  rename_i free
  cases stepped
  obtain ⟨⟨held, framed, holds⟩, small, clean⟩ := kept.framed
  rw [acquiring] at holds
  obtain ⟨rfl, bounded⟩ := holds
  have numbered := kept.numbered
  have whole := numbered.whole (by rw [acquiring]; rfl) (by rw [acquiring]; rintro _ _ ⟨⟩)
  refine ⟨⟨⟨[], ?_, rfl⟩, ?_, by rintro ⟨⟩⟩, ?_, ?_, ?_⟩
  · dsimp only
    rw [framed, List.flatMap_append]
    simp
  · intro task among
    rcases List.mem_append.mp among with before | last
    · exact small task before
    · rw [List.mem_singleton.mp last]
      exact bounded
  · refine ⟨numbered.expected_le, numbered.done, numbered.room, .inr ⟨?_, .inl ?_⟩, ?_,
      numbered.joining, ?_, numbered.sound, ?_⟩
    · dsimp only
      rw [List.length_append, List.length_singleton, whole]
    · dsimp only
      rw [whole]
    · rintro sequence task ⟨⟩
      refine ⟨rfl, whole, ?_⟩
      dsimp only
      rw [List.length_append, List.length_singleton, whole]
    · intro is
      have gone := (numbered.drained is).1
      rw [acquiring] at gone
      cases gone
    · unfold World.running at free ⊢
      dsimp only
      rw [List.countP_append, List.countP_singleton]
      split
      · omega
      · omega
  · refine kept.wrote.of_tasks rfl rfl rfl ?_ ?_
    · exact fun count known => ⟨known.append _, wired_append known _⟩
    · intro count task there _
      dsimp only
      rw [List.getElem?_append_left (List.getElem?_eq_some_iff.mp there).1]
      exact there
  · exact kept.ending.read (by rw [acquiring]; rfl) (by rintro ⟨⟩) (by rintro _ ⟨⟩)

theorem Kept.send (kept : world.Kept limits) (stepped : world.send limits = some next) :
    next.Kept limits := by
  unfold World.send at stepped
  split at stepped
  swap
  · cases stepped
  rename_i sequence task sending
  obtain ⟨⟨held, framed, holds⟩, small, clean⟩ := kept.framed
  rw [sending] at holds
  obtain rfl : held = [] := holds
  have numbered := kept.numbered
  obtain ⟨rfl, rfl, length⟩ := numbered.sending sequence task sending
  have going : world.reader.gone = false := by
    rw [sending]
    rfl
  have undrained :
      ¬ (world.writer = .flushing .drained ∨ world.writer = .ended (.ok .drained)) := by
    intro is
    rw [(numbered.drained is).1] at going
    cases going
  split at stepped
  · rename_i gone
    cases stepped
    have lost : world.writer.Lost := ⟨gone, fun is => undrained (.inr is)⟩
    refine ⟨⟨⟨[], framed, rfl⟩, small, fun _ => .inl lost⟩, ?_,
      kept.wrote.same rfl rfl rfl rfl, kept.ending.read going (by rintro ⟨⟩) (by rintro _ ⟨⟩)⟩
    exact ⟨numbered.expected_le, numbered.done, numbered.room,
      .inr ⟨length, .inr (.inr ⟨rfl, lost⟩)⟩, by rintro _ _ ⟨⟩, numbered.joining,
      fun is => absurd is undrained, numbered.sound, numbered.running⟩
  · split at stepped
    · rename_i room
      cases stepped
      have few := numbered.expected_le
      rw [numbered.done, List.length_map, List.length_range'] at room
      refine ⟨⟨⟨[], framed, rfl⟩, small, by rintro ⟨⟩⟩, ?_, kept.wrote.same rfl rfl rfl rfl,
        kept.ending.read going (by rintro ⟨⟩) (by rintro _ ⟨⟩)⟩
      refine ⟨few.trans (Nat.le_succ _), ?_, by dsimp only; omega, .inl length, by rintro _ _ ⟨⟩,
        numbered.joining, fun is => absurd is undrained, numbered.sound, numbered.running⟩
      have last : world.expected + (world.sequence - world.expected) = world.sequence := by omega
      dsimp only
      rw [numbered.done, Nat.succ_sub few, List.range'_concat, List.map_append, Nat.one_mul, last]
      rfl
    · cases stepped

theorem Kept.finish (kept : world.Kept limits) {task : Nat} {outcome : Outcome}
    (ended : outcome ≠ .running) (stepped : world.finish task outcome = some next) :
    next.Kept limits := by
  obtain ⟨one, there, stepped⟩ := Option.bind_eq_some_iff.mp stepped
  split at stepped
  swap
  · cases stepped
  rename_i running
  cases stepped
  obtain ⟨inside, is⟩ := List.getElem?_eq_some_iff.mp there
  obtain ⟨⟨held, framed, holds⟩, small, clean⟩ := kept.framed
  have requests : (world.tasks.set task { one with outcome }).map Task.request =
      world.tasks.map Task.request := by
    refine List.ext_getElem? fun i => ?_
    rw [List.getElem?_map, List.getElem?_map]
    by_cases same : task = i
    · subst same
      rw [List.getElem?_set_self inside, there]
      rfl
    · rw [List.getElem?_set_ne same]
  have numbered := kept.numbered
  refine ⟨⟨⟨held, ?_, holds⟩, ?_, clean⟩, ?_, ?_, kept.ending⟩
  · have frames (tasks : List Task) : tasks.flatMap (fun task => frame task.request) =
        (tasks.map Task.request).flatMap frame := (List.flatMap_map ..).symm
    dsimp only
    rw [framed, frames, frames, requests]
  · intro other among
    have request : other.request ∈ world.tasks.map Task.request := by
      rw [← requests]
      exact List.mem_map_of_mem among
    obtain ⟨before, among, same⟩ := List.mem_map.mp request
    rw [← same]
    exact small before among
  · have length : (world.tasks.set task { one with outcome }).length = world.tasks.length :=
      List.length_set ..
    refine ⟨numbered.expected_le, numbered.done, numbered.room, ?_, ?_, numbered.joining,
      numbered.drained, numbered.sound, ?_⟩
    · dsimp only
      rw [length]
      exact numbered.counted
    · intro sequence at_ sending
      dsimp only
      rw [length]
      exact numbered.sending sequence at_ sending
    · refine Nat.le_trans ?_ numbered.running
      unfold World.running
      dsimp only
      rw [List.countP_set inside, is]
      have positive : 0 < world.tasks.countP fun task => task.outcome = .running :=
        List.countP_pos_iff.mpr ⟨one, List.mem_of_getElem? there, by simpa using running⟩
      simp [running, ended]
  · refine kept.wrote.of_tasks rfl rfl rfl ?_ ?_
    · intro count known
      have after := known.le_of_running there running
      exact ⟨known.set after _, wired_set after _⟩
    · intro count other held some_
      dsimp only
      rw [List.getElem?_set_ne]
      · exact held
      · rintro rfl
        rw [there] at held
        cases held
        exact some_ running

theorem Ending.write {main : Main} {reader : Reader} {writer : Writer}
    (ending : Ending main reader writer) (going : writer.gone = false) {writer' : Writer}
    (unaborted : writer' ≠ .aborted)
    (writes : ∀ e, writer' = .ended (.error e) → e ≠ .connectionTaskFailed) :
    Ending main reader writer' := by
  have ungone {write} : writer ≠ .ended write := by
    rintro rfl
    cases going
  refine ⟨fun on => ⟨(ending.unaborted on).1, unaborted⟩, ending.awaitingWriter,
    fun awaits => absurd (ending.awaitingReader awaits) ungone, fun result is => ?_,
    ending.reads, writes⟩
  rcases ending.returned result is with ⟨closed, -⟩ | ⟨e, failed, -⟩ | ⟨read, write, -, ended, -⟩
  · exact absurd closed ungone
  · exact absurd failed ungone
  · exact absurd ended ungone

theorem Framed.write (framed : world.Framed limits) (going : world.writer.gone = false)
    (received : next.received = world.received) (tasks : next.tasks = world.tasks)
    (reader : next.reader = world.reader) (inbound : next.inbound = world.inbound)
    (closed : next.closed = world.closed) : next.Framed limits := by
  obtain ⟨framed, small, clean⟩ := framed
  refine ⟨?_, ?_, ?_⟩
  · rw [received, tasks, reader, inbound]
    exact framed
  · rw [tasks]
    exact small
  · rw [reader, inbound, closed]
    intro ended
    rcases clean ended with lost | done
    · rw [lost.1] at going
      cases going
    · exact .inr done

theorem Numbered.counted_write (numbered : world.Numbered limits)
    (going : world.writer.gone = false) : world.tasks.length = world.sequence ∨
      world.tasks.length = world.sequence + 1 ∧
        (world.reader = .sending world.sequence world.sequence ∨ world.reader = .aborted) := by
  rcases numbered.counted with whole | ⟨more, sending | aborted | ⟨-, lost⟩⟩
  · exact .inl whole
  · exact .inr ⟨more, .inl sending⟩
  · exact .inr ⟨more, .inr aborted⟩
  · rw [lost.1] at going
    cases going

theorem Kept.write_ (kept : world.Kept limits) (going : world.writer.gone = false)
    {writer : Writer} {outbound : List UInt8} (sound : writer ≠ .panicked)
    (unaborted : writer ≠ .aborted) (unjoined : ∀ task, writer ≠ .joining task)
    (drains : writer = .flushing .drained ∨ writer = .ended (.ok .drained) →
      world.reader.gone = true ∧ world.expected = world.sequence)
    (writes : ∀ e, writer = .ended (.error e) → e ≠ .connectionTaskFailed)
    (wrote_ : Wrote { world with writer, outbound }) :
    Kept limits { world with writer, outbound } := by
  have numbered := kept.numbered
  refine ⟨kept.framed.write going rfl rfl rfl rfl rfl, ?_, wrote_,
    kept.ending.write going unaborted writes⟩
  refine ⟨numbered.expected_le, numbered.done, numbered.room, ?_, numbered.sending,
    fun task is => absurd is (unjoined task), drains, sound, numbered.running⟩
  rcases numbered.counted_write going with whole | ⟨more, sending | aborted⟩
  · exact .inl whole
  · exact .inr ⟨more, .inl sending⟩
  · exact .inr ⟨more, .inr (.inl aborted)⟩

theorem Kept.receive (kept : world.Kept limits) (stepped : world.receive = some next) :
    next.Kept limits := by
  unfold World.receive at stepped
  split at stepped
  swap
  · cases stepped
  rename_i receiving
  have numbered := kept.numbered
  have going : world.writer.gone = false := by
    rw [receiving]
    rfl
  obtain ⟨count, known, prefix_, stands⟩ := kept.wrote
  rw [receiving] at stands
  obtain ⟨rfl, whole⟩ := stands
  split at stepped
  · rename_i sequence task done queued
    have numbers := numbered.done
    have le := numbered.expected_le
    rw [queued] at numbers
    obtain ⟨rest, is⟩ : ∃ rest, world.sequence - world.expected = rest + 1 := by
      refine Nat.exists_eq_succ_of_ne_zero fun none_ => ?_
      rw [none_] at numbers
      cases numbers
    rw [is, List.range'_succ, List.map_cons] at numbers
    obtain ⟨first, others⟩ := List.cons.inj numbers
    obtain ⟨rfl, rfl⟩ := Prod.mk.inj first
    rw [if_pos rfl] at stepped
    cases stepped
    refine ⟨kept.framed.write going rfl rfl rfl rfl rfl, ?_, ?_,
      kept.ending.write going (by rintro ⟨⟩) (by rintro _ ⟨⟩)⟩
    · refine ⟨by dsimp only; omega, ?_, ?_, ?_, numbered.sending, ?_, ?_, by rintro ⟨⟩,
        numbered.running⟩
      · dsimp only
        rw [others, ← Nat.sub_sub, is]
        rfl
      · have := numbered.room
        dsimp only
        omega
      · rcases numbered.counted_write going with whole | ⟨more, sending | aborted⟩
        · exact .inl whole
        · exact .inr ⟨more, .inl sending⟩
        · exact .inr ⟨more, .inr (.inl aborted)⟩
      · rintro task ⟨⟩
        rfl
      · rintro (⟨⟨⟩⟩ | ⟨⟨⟩⟩)
    · exact ⟨world.expected, known, prefix_, rfl, whole⟩
  · rename_i empty
    split at stepped
    · rename_i gone
      cases stepped
      have numbers := congrArg List.length numbered.done
      rw [empty, List.length_map, List.length_range', List.length_nil] at numbers
      have le := numbered.expected_le
      refine kept.write_ going (by rintro ⟨⟩) (by rintro ⟨⟩) (by rintro _ ⟨⟩) (fun _ => ⟨gone, ?_⟩)
        (by rintro _ ⟨⟩) ⟨world.expected, known, prefix_, rfl, whole⟩
      omega
    · cases stepped

theorem Kept.join (kept : world.Kept limits) (stepped : world.join = some next) :
    next.Kept limits := by
  unfold World.join at stepped
  split at stepped
  swap
  · cases stepped
  rename_i task joining
  have numbered := kept.numbered
  have going : world.writer.gone = false := by
    rw [joining]
    rfl
  obtain ⟨count, known, prefix_, stands⟩ := kept.wrote
  rw [joining] at stands
  obtain ⟨rfl, whole⟩ := stands
  have expected := numbered.joining count joining
  obtain ⟨one, there, stepped⟩ := Option.bind_eq_some_iff.mp stepped
  have outcome : (world.tasks[count]?).map Task.outcome = some one.outcome := by
    rw [there]
    rfl
  split at stepped
  · cases stepped
  · rename_i panicked
    cases stepped
    rw [panicked] at outcome
    exact kept.write_ going (by rintro ⟨⟩) (by rintro ⟨⟩) (by rintro _ ⟨⟩)
      (by rintro (⟨⟨⟩⟩ | ⟨⟨⟩⟩)) (by rintro _ ⟨⟩; rintro ⟨⟩) ⟨count, known, prefix_, outcome, whole⟩
  · rename_i silent
    cases stepped
    obtain ⟨known', grown⟩ := known.succ there (by rw [silent]; rfl)
    rw [List.append_nil] at grown
    refine kept.write_ going (by rintro ⟨⟩) (by rintro ⟨⟩) (by rintro _ ⟨⟩)
      (by rintro (⟨⟨⟩⟩ | ⟨⟨⟩⟩)) (by rintro _ ⟨⟩) ⟨count + 1, known', ?_, expected, ?_⟩
    · exact (whole.trans grown.symm) ▸ List.prefix_rfl
    · exact whole.trans grown.symm
  · rename_i close
    cases stepped
    rw [close] at outcome
    exact kept.write_ going (by rintro ⟨⟩) (by rintro ⟨⟩) (by rintro _ ⟨⟩)
      (by rintro (⟨⟨⟩⟩ | ⟨⟨⟩⟩)) (by rintro _ ⟨⟩) ⟨count, known, prefix_, outcome, whole⟩
  · rename_i response reply
    split at stepped
    · rename_i fits
      cases stepped
      obtain ⟨known', grown⟩ := known.succ there
        (show _ = some (frame response) by rw [reply]; exact if_pos fits)
      refine kept.write_ going (by rintro ⟨⟩) (by rintro ⟨⟩) (by rintro _ ⟨⟩)
        (by rintro (⟨⟨⟩⟩ | ⟨⟨⟩⟩)) (by rintro _ ⟨⟩) ⟨count + 1, known', ?_, expected, ?_⟩
      · rw [grown, ← whole]
        exact List.prefix_append _ _
      · rw [grown, ← whole]
    · cases stepped
      exact kept.write_ going (by rintro ⟨⟩) (by rintro ⟨⟩) (by rintro _ ⟨⟩)
        (by rintro (⟨⟨⟩⟩ | ⟨⟨⟩⟩)) (by rintro _ ⟨⟩; rintro ⟨⟩) ⟨count, known, prefix_, trivial⟩

theorem Kept.write (kept : world.Kept limits) {taken : Nat}
    (stepped : world.write taken = some next) : next.Kept limits := by
  unfold World.write at stepped
  split at stepped
  swap
  · cases stepped
  rename_i left writing
  have going : world.writer.gone = false := by
    rw [writing]
    rfl
  obtain ⟨count, known, prefix_, stands⟩ := kept.wrote
  rw [writing] at stands
  obtain ⟨expected, whole⟩ := stands
  split at stepped
  swap
  · cases stepped
  rename_i some_
  cases stepped
  have split_ := List.take_append_drop taken left
  have grown : world.outbound ++ left.take taken ++ left.drop taken =
      wired world.tasks count := by
    rw [List.append_assoc, split_, whole]
  have among : world.outbound ++ left.take taken <+: wired world.tasks count :=
    ⟨_, grown⟩
  split
  · rename_i all
    rw [all, List.drop_length, List.append_nil] at grown
    rw [all] at among ⊢
    exact kept.write_ going (by rintro ⟨⟩) (by rintro ⟨⟩) (by rintro _ ⟨⟩)
      (by rintro (⟨⟨⟩⟩ | ⟨⟨⟩⟩)) (by rintro _ ⟨⟩) ⟨count, known, among, expected, grown⟩
  · exact kept.write_ going (by rintro ⟨⟩) (by rintro ⟨⟩) (by rintro _ ⟨⟩)
      (by rintro (⟨⟨⟩⟩ | ⟨⟨⟩⟩)) (by rintro _ ⟨⟩) ⟨count, known, among, expected, grown⟩

theorem Kept.flush (kept : world.Kept limits) (stepped : world.flush = some next) :
    next.Kept limits := by
  unfold World.flush at stepped
  split at stepped
  swap
  · cases stepped
  rename_i end_ flushing
  cases stepped
  have going : world.writer.gone = false := by
    rw [flushing]
    rfl
  obtain ⟨count, known, prefix_, stands⟩ := kept.wrote
  rw [flushing] at stands
  refine kept.write_ going (by rintro ⟨⟩) (by rintro ⟨⟩) (by rintro _ ⟨⟩) ?_
    (by rintro _ ⟨⟩) ⟨count, known, prefix_, ?_⟩
  · rintro (⟨⟨⟩⟩ | ⟨⟨⟩⟩)
    exact kept.numbered.drained (.inl flushing)
  · cases end_ with
    | drained => exact stands
    | handlerClosed => exact stands

theorem Kept.writeEnds (kept : world.Kept limits)
    (waits : (∃ left, world.writer = .writing left) ∨ ∃ end_, world.writer = .flushing end_)
    {e : ConnectionEnd} (other : e ≠ .handlerPanicked ∧ e ≠ .connectionTaskFailed) :
    Kept limits { world with writer := .ended (.error e) } := by
  have going : world.writer.gone = false := by
    rcases waits with ⟨left, is⟩ | ⟨end_, is⟩ <;> rw [is] <;> rfl
  obtain ⟨count, known, prefix_, -⟩ := kept.wrote
  refine kept.write_ going (by rintro ⟨⟩) (by rintro ⟨⟩) (by rintro _ ⟨⟩)
    (by rintro (⟨⟨⟩⟩ | ⟨⟨⟩⟩)) (by rintro _ ⟨⟩; exact other.2) ⟨count, known, prefix_, ?_⟩
  cases e with
  | handlerPanicked => exact absurd rfl other.1
  | _ => trivial

theorem Kept.main (kept : world.Kept limits) {main : Main}
    (ending : Ending main world.reader world.writer) : Kept limits { world with main } := by
  obtain ⟨framed, small, clean⟩ := kept.framed
  have numbered := kept.numbered
  refine ⟨⟨framed, small, clean⟩, ⟨numbered.expected_le, numbered.done, numbered.room,
    numbered.counted, numbered.sending, numbered.joining, numbered.drained, numbered.sound,
    numbered.running⟩, kept.wrote.same rfl rfl rfl rfl, ending⟩

theorem Kept.selectReader (kept : world.Kept limits) (stepped : world.selectReader = some next) :
    next.Kept limits := by
  unfold World.selectReader at stepped
  split at stepped
  swap
  · cases stepped
  rename_i selecting
  have ending := kept.ending
  have unaborted := ending.unaborted (by rw [selecting]; rfl)
  split at stepped
  · rename_i result ended
    cases stepped
    refine kept.main ⟨fun _ => unaborted, ?_, ?_, ?_, ending.reads, ending.writes⟩
    · rintro read ⟨⟩
      exact ended
    · rintro ⟨⟩
    · rintro result ⟨⟩
  · rename_i aborted
    exact absurd aborted unaborted.1
  · cases stepped

theorem Kept.selectWriter (kept : world.Kept limits) (stepped : world.selectWriter = some next) :
    next.Kept limits := by
  unfold World.selectWriter at stepped
  split at stepped
  swap
  · cases stepped
  rename_i selecting
  have ending := kept.ending
  have unaborted := ending.unaborted (by rw [selecting]; rfl)
  split at stepped
  · rename_i drained
    cases stepped
    refine kept.main ⟨fun _ => unaborted, ?_, fun _ => drained, ?_, ending.reads, ending.writes⟩
    · rintro read ⟨⟩
    · rintro result ⟨⟩
  · rename_i closed
    cases stepped
    refine kept.main ⟨by rintro ⟨⟩, by rintro _ ⟨⟩, by rintro ⟨⟩, ?_, ending.reads, ending.writes⟩
    rintro result ⟨⟩
    exact .inl ⟨closed, rfl⟩
  · rename_i e failed
    cases stepped
    refine kept.main ⟨by rintro ⟨⟩, by rintro _ ⟨⟩, by rintro ⟨⟩, ?_, ending.reads, ending.writes⟩
    rintro result ⟨⟩
    exact .inr (.inl ⟨e, failed, rfl⟩)
  · rename_i panicked
    exact absurd panicked kept.numbered.sound
  · rename_i aborted
    exact absurd aborted unaborted.2
  · cases stepped

theorem Kept.settle (kept : world.Kept limits) (stepped : world.settle = some next) :
    next.Kept limits := by
  unfold World.settle at stepped
  have ending := kept.ending
  split at stepped
  · rename_i read awaits
    have unaborted := ending.unaborted (by rw [awaits]; rfl)
    split at stepped
    · rename_i write ended
      cases stepped
      refine kept.main ⟨by rintro ⟨⟩, by rintro _ ⟨⟩, by rintro ⟨⟩, ?_, ending.reads, ending.writes⟩
      rintro result ⟨⟩
      exact .inr (.inr ⟨read, write, ending.awaitingWriter read awaits, ended, rfl⟩)
    · rename_i panicked
      exact absurd panicked kept.numbered.sound
    · rename_i aborted
      exact absurd aborted unaborted.2
    · cases stepped
  · rename_i awaits
    have unaborted := ending.unaborted (by rw [awaits]; rfl)
    split at stepped
    · rename_i read ended
      cases stepped
      refine kept.main ⟨by rintro ⟨⟩, by rintro _ ⟨⟩, by rintro ⟨⟩, ?_, ending.reads, ending.writes⟩
      rintro result ⟨⟩
      refine .inr (.inr ⟨read, .ok .drained, ended, ending.awaitingReader awaits, ?_⟩)
      cases read with
      | ok done => rfl
      | error e => rfl
    · rename_i aborted
      exact absurd aborted unaborted.1
    · cases stepped
  · cases stepped

theorem Kept.abortReader (kept : world.Kept limits) (is : world.main.over = true)
    (going : world.reader.gone = false) : Kept limits { world with reader := .aborted } := by
  obtain ⟨⟨held, framed, -⟩, small, -⟩ := kept.framed
  have numbered := kept.numbered
  have ending := kept.ending
  have ungone {read} : world.reader ≠ .ended read := by
    intro ended
    rw [ended] at going
    cases going
  refine ⟨⟨⟨held, framed, trivial⟩, small, by rintro ⟨⟩⟩, ?_, kept.wrote.same rfl rfl rfl rfl, ?_⟩
  · refine ⟨numbered.expected_le, numbered.done, numbered.room, ?_, by rintro _ _ ⟨⟩,
      numbered.joining, fun drained => ⟨rfl, (numbered.drained drained).2⟩, numbered.sound,
      numbered.running⟩
    exact numbered.counted.imp_right fun more => ⟨more.1, .inr (.inl rfl)⟩
  · refine ⟨fun on => absurd is (by rw [on]; exact Bool.false_ne_true), fun read awaits => ?_,
      ending.awaitingReader, fun result is => ?_, by rintro _ ⟨⟩, ending.writes⟩
    · exact absurd (ending.awaitingWriter read awaits) ungone
    · rcases ending.returned result is with closed | failed | ⟨read, write, ended, -⟩
      · exact .inl closed
      · exact .inr (.inl failed)
      · exact absurd ended ungone

theorem Kept.abortWriter (kept : world.Kept limits) (is : world.main.over = true)
    (going : world.writer.gone = false) : Kept limits { world with writer := .aborted } := by
  have numbered := kept.numbered
  have ending := kept.ending
  have ungone {write} : world.writer ≠ .ended write := by
    intro ended
    rw [ended] at going
    cases going
  obtain ⟨count, known, prefix_, -⟩ := kept.wrote
  refine ⟨kept.framed.write going rfl rfl rfl rfl rfl, ?_, ⟨count, known, prefix_, trivial⟩, ?_⟩
  · refine ⟨numbered.expected_le, numbered.done, numbered.room, ?_, numbered.sending,
      by rintro _ ⟨⟩, by rintro (⟨⟨⟩⟩ | ⟨⟨⟩⟩), by rintro ⟨⟩, numbered.running⟩
    rcases numbered.counted_write going with whole | ⟨more, sending | aborted⟩
    · exact .inl whole
    · exact .inr ⟨more, .inl sending⟩
    · exact .inr ⟨more, .inr (.inl aborted)⟩
  · refine ⟨fun on => absurd is (by rw [on]; exact Bool.false_ne_true), ending.awaitingWriter,
      fun awaits => absurd (ending.awaitingReader awaits) ungone, fun result is => ?_,
      ending.reads, by rintro _ ⟨⟩⟩
    rcases ending.returned result is with ⟨closed, -⟩ | ⟨e, failed, -⟩ | ⟨read, write, -, ended, -⟩
    · exact absurd closed ungone
    · exact absurd failed ungone
    · exact absurd ended ungone

theorem Kept.step (kept : world.Kept limits) {action : Action}
    (stepped : world.step limits action = some next) : next.Kept limits := by
  have timesOut (e : String) : ConnectionEnd.timedOut e ≠ .handlerPanicked ∧
      ConnectionEnd.timedOut e ≠ .connectionTaskFailed := ⟨by rintro ⟨⟩, by rintro ⟨⟩⟩
  have fails (e : IoError) : ConnectionEnd.io e ≠ .handlerPanicked ∧
      ConnectionEnd.io e ≠ .connectionTaskFailed := ⟨by rintro ⟨⟩, by rintro ⟨⟩⟩
  cases action with
  | arrive bytes =>
    unfold World.step at stepped
    dsimp only at stepped
    split at stepped
    · cases stepped
    · rename_i open_
      cases stepped
      obtain ⟨⟨held, framed, holds⟩, small, clean⟩ := kept.framed
      have numbered := kept.numbered
      refine ⟨⟨⟨held, ?_, holds⟩, small, fun ended => ?_⟩, ⟨numbered.expected_le, numbered.done,
        numbered.room, numbered.counted, numbered.sending, numbered.joining, numbered.drained,
        numbered.sound, numbered.running⟩, kept.wrote.same rfl rfl rfl rfl, kept.ending⟩
      · dsimp only
        rw [framed, List.append_assoc, List.append_assoc]
      · rcases clean ended with lost | ⟨-, closed⟩
        · exact .inl lost
        · exact absurd closed open_
  | peerCloses =>
    cases stepped
    obtain ⟨framed, small, clean⟩ := kept.framed
    have numbered := kept.numbered
    exact ⟨⟨framed, small, fun ended => (clean ended).imp_right fun few => ⟨few.1, rfl⟩⟩,
      ⟨numbered.expected_le, numbered.done, numbered.room, numbered.counted, numbered.sending,
        numbered.joining, numbered.drained, numbered.sound, numbered.running⟩,
      kept.wrote.same rfl rfl rfl rfl, kept.ending⟩
  | readSize => exact kept.readSize stepped
  | readBody => exact kept.readBody stepped
  | readTimesOut =>
    change world.readTimesOut = some next at stepped
    unfold World.readTimesOut at stepped
    split at stepped
    · rename_i sizing
      cases stepped
      exact kept.readEnds (.inl sizing) (timesOut _)
    · rename_i size reading
      cases stepped
      exact kept.readEnds (.inr ⟨size, reading⟩) (timesOut _)
    · cases stepped
  | readFails error =>
    change world.readFails error = some next at stepped
    unfold World.readFails at stepped
    split at stepped
    · rename_i sizing
      split at stepped
      · cases stepped
      · cases stepped
        exact kept.readEnds (.inl sizing) (fails _)
    · rename_i size reading
      cases stepped
      exact kept.readEnds (.inr ⟨size, reading⟩) (fails _)
    · cases stepped
  | acquire => exact kept.acquire stepped
  | send => exact kept.send stepped
  | finish task response => exact kept.finish (by rintro ⟨⟩) stepped
  | panic task => exact kept.finish (by rintro ⟨⟩) stepped
  | receive => exact kept.receive stepped
  | join => exact kept.join stepped
  | write count => exact kept.write stepped
  | writeTimesOut =>
    change world.writeTimesOut = some next at stepped
    unfold World.writeTimesOut at stepped
    split at stepped
    · rename_i left writing
      cases stepped
      exact kept.writeEnds (.inl ⟨left, writing⟩) (timesOut _)
    · cases stepped
  | flush => exact kept.flush stepped
  | writeFails error =>
    change world.writeFails error = some next at stepped
    unfold World.writeFails at stepped
    split at stepped
    · rename_i left writing
      cases stepped
      exact kept.writeEnds (.inl ⟨left, writing⟩) (fails _)
    · rename_i end_ flushing
      cases stepped
      exact kept.writeEnds (.inr ⟨end_, flushing⟩) (fails _)
    · cases stepped
  | selectReader => exact kept.selectReader stepped
  | selectWriter => exact kept.selectWriter stepped
  | settle => exact kept.settle stepped
  | drop =>
    unfold World.step at stepped
    dsimp only at stepped
    split at stepped
    · cases stepped
    · cases stepped
      refine kept.main ⟨by rintro ⟨⟩, by rintro _ ⟨⟩, by rintro ⟨⟩, by rintro _ ⟨⟩,
        kept.ending.reads, kept.ending.writes⟩
  | abortReader =>
    unfold World.step at stepped
    dsimp only at stepped
    split at stepped
    · rename_i both
      obtain ⟨is, going⟩ := Bool.and_eq_true_iff.mp both
      cases stepped
      exact kept.abortReader is (by simpa using going)
    · cases stepped
  | abortWriter =>
    unfold World.step at stepped
    dsimp only at stepped
    split at stepped
    · rename_i both
      obtain ⟨is, going⟩ := Bool.and_eq_true_iff.mp both
      cases stepped
      exact kept.abortWriter is (by simpa using going)
    · cases stepped

theorem Kept.start : Kept limits {} where
  framed := ⟨⟨[], rfl, rfl⟩, fun _ among => absurd among List.not_mem_nil, by rintro ⟨⟩⟩
  numbered := ⟨le_rfl, rfl, Nat.zero_le _, .inl rfl, by rintro _ _ ⟨⟩, by rintro _ ⟨⟩,
    by rintro (⟨⟨⟩⟩ | ⟨⟨⟩⟩), by rintro ⟨⟩, Nat.zero_le _⟩
  wrote := ⟨0, ⟨le_rfl, fun _ among => absurd among List.not_mem_nil⟩, List.prefix_rfl, rfl, rfl⟩
  ending := ⟨fun _ => ⟨by rintro ⟨⟩, by rintro ⟨⟩⟩, by rintro _ ⟨⟩, by rintro ⟨⟩, by rintro _ ⟨⟩,
    by rintro _ ⟨⟩, by rintro _ ⟨⟩⟩

theorem Ending.ok {main : Main} {reader : Reader} {writer : Writer}
    (ending : Ending main reader writer) (is : main = .returned (.ok ())) :
    writer = .ended (.ok .handlerClosed) ∨
      reader = .ended (.ok ()) ∧ writer = .ended (.ok .drained) := by
  rcases ending.returned _ is with ⟨closed, -⟩ | ⟨e, -, no⟩ | ⟨read, write, ended, ended', both⟩
  · exact .inl closed
  · cases no
  · cases read with
    | error e => cases both
    | ok done =>
      cases write with
      | error e => cases both
      | ok end_ =>
        cases end_ with
        | handlerClosed => exact .inl ended'
        | drained => exact .inr ⟨ended, ended'⟩

theorem Ending.panicked {main : Main} {reader : Reader} {writer : Writer}
    (ending : Ending main reader writer) (is : main = .returned (.error .handlerPanicked)) :
    writer = .ended (.error .handlerPanicked) := by
  rcases ending.returned _ is with ⟨-, no⟩ | ⟨e, failed, same⟩ | ⟨read, write, ended, ended', both⟩
  · cases no
  · cases same
    exact failed
  · cases read with
    | error e =>
      cases both
      exact absurd rfl (ending.reads _ ended).1
    | ok done =>
      cases write with
      | error e =>
        cases both
        exact ended'
      | ok end_ => cases both

theorem Ending.sound {main : Main} {reader : Reader} {writer : Writer}
    (ending : Ending main reader writer) : main ≠ .returned (.error .connectionTaskFailed) := by
  intro is
  rcases ending.returned _ is with ⟨-, no⟩ | ⟨e, failed, same⟩ | ⟨read, write, ended, ended', both⟩
  · cases no
  · cases same
    exact ending.writes _ failed rfl
  · cases read with
    | error e =>
      cases both
      exact (ending.reads _ ended).2 rfl
    | ok done =>
      cases write with
      | error e =>
        cases both
        exact ending.writes _ ended' rfl
      | ok end_ => cases both

theorem Kept.stopped (kept : world.Kept limits) {end_ : Except ConnectionEnd WriterEnd}
    {outcome : Outcome} (ended : world.writer = .ended end_)
    (which : end_ = .ok .handlerClosed ∧ outcome = .responded .close ∨
      end_ = .error .handlerPanicked ∧ outcome = .panicked) :
    world.outbound = wire world.tasks ∧ StopsAt world.tasks outcome := by
  obtain ⟨count, known, -, stands⟩ := kept.wrote
  rw [ended] at stands
  obtain ⟨is, whole⟩ : (world.tasks[count]?).map Task.outcome = some outcome ∧
      world.outbound = wired world.tasks count := by
    rcases which with ⟨rfl, rfl⟩ | ⟨rfl, rfl⟩ <;> exact stands
  obtain ⟨task, there, same⟩ := Option.map_eq_some_iff.mp is
  refine ⟨?_, count, task, there, same, known.2⟩
  rw [whole]
  refine known.eq_wire fun other there' => ?_
  rw [there] at there'
  cases there'
  rw [same]
  rcases which with ⟨-, rfl⟩ | ⟨-, rfl⟩ <;> rfl

/-- Where the writer drained what the reader read, everything is written. -/
theorem Kept.finished (kept : world.Kept limits) (read : world.reader = .ended (.ok ()))
    (drained : world.writer = .ended (.ok .drained)) :
    world.outbound = wire world.tasks ∧ (∀ task ∈ world.tasks, task.outcome.written.isSome) ∧
      world.inbound.length < 4 ∧ world.closed = true := by
  have unlost : ¬ world.writer.Lost := fun lost => lost.2 drained
  obtain ⟨count, known, -, stands⟩ := kept.wrote
  rw [drained] at stands
  obtain ⟨rfl, whole⟩ := stands
  have all : world.expected = world.tasks.length := by
    rw [(kept.numbered.drained (.inr drained)).2]
    rcases kept.numbered.counted with whole | ⟨-, sending | aborted | ⟨-, lost⟩⟩
    · exact whole.symm
    · rw [read] at sending
      cases sending
    · rw [read] at aborted
      cases aborted
    · exact absurd lost unlost
  rw [all] at known whole
  refine ⟨?_, ?_, (kept.framed.clean read).resolve_left unlost⟩
  · rw [whole]
    refine known.eq_wire fun task there => ?_
    rw [List.getElem?_eq_none (Nat.le_refl _)] at there
    cases there
  · have each := known.2
    rwa [List.take_length] at each

end World

end Oqueue.Connection
