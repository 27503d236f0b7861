import Oqueue.Coordinator.Admission

/-!
# Serving a shard's requests

Assign, journal, then acknowledge. The loop here is the one a shard runs with no
lease to lose; whether the journal takes an entry is an input. The allocator is
touched only once the journal has answered.
-/

namespace Oqueue

open Checked

inductive SpanOutcome where
  | assigned (assignment : Assignment)
  | rejected (reason : RejectReason)
  deriving DecidableEq, Repr

inductive CoordinatorError where
  | unassignable (source : Error)
  | journal (source : Error)
  | unreplayable (version : Nat) (source : Error)
  | fenced
  | unavailable
  deriving DecidableEq, Repr

structure CommitAck where
  version : Nat
  epoch : Nat
  assignments : List Assignment
  outcomes : List SpanOutcome
  deriving DecidableEq, Repr

def SpanOutcome.assignment? : SpanOutcome → Option Assignment
  | .assigned assignment => some assignment
  | .rejected _ => none

/-- Puts the outcomes back in the order of the spans they answer. -/
def inSpanOrder (outcomes : List (Nat × SpanOutcome)) : List SpanOutcome :=
  (outcomes.insertionSort fun a b => a.1 ≤ b.1).map Prod.snd

def CommitAck.of (version epoch : Nat) (outcomes : List (Nat × SpanOutcome)) : CommitAck :=
  ⟨version, epoch, (inSpanOrder outcomes).filterMap SpanOutcome.assignment?, inSpanOrder outcomes⟩

/-- What the spans that never reach `stage` are answered with. -/
def Admission.answered (self : Admission) : List (Nat × SpanOutcome) :=
  self.replayed.map (fun r => (r.1, .assigned r.2.2.2)) ++
    self.rejected.map fun r => (r.1, .rejected r.2.2.2)

structure CoordinatorLoop where
  epoch : Nat := 0
  allocator : Allocator := {}
  log : List MetadataEntry := []
  lastCommitted : Option Nat := none

inductive LoopRequest where
  | commit (object : ObjectKey) (spans : List CommittedSpan) (writtenAt : Nat)
  | trim (topic : TopicId) (partition start : Nat)
  | retention (topic : TopicId) (retentionMs : Option Int)

namespace CoordinatorLoop

/-- The journal has the entry: the allocator takes the staged position. -/
def taken (self : CoordinatorLoop) (staged : Allocator.Staged) : CoordinatorLoop :=
  { self with
    allocator := (self.allocator.apply staged).1
    log := self.log ++ [staged.entry]
    lastCommitted := some staged.entry.version }

def serve (self : CoordinatorLoop) (object : ObjectKey) (spans : List CommittedSpan)
    (writtenAt : Nat) (journal : Except Error Unit) :
    CoordinatorLoop × Except CoordinatorError CommitAck :=
  let admission := self.allocator.admitSpans spans
  let admitted := admission.admitted.map Prod.snd
  if admitted.isEmpty then
    (self, .ok (.of (self.lastCommitted.getD 0) self.epoch admission.answered))
  else match self.allocator.stage object admitted writtenAt with
    | .error source => (self, .error (.unassignable source))
    | .ok staged => match journal with
      | .error source => (self, .error (.journal source))
      | .ok () =>
        (self.taken staged, .ok (.of staged.entry.version self.epoch (admission.answered ++
          (admission.admitted.map Prod.fst).zip (staged.assignments.map .assigned))))

/-- A record staged without offsets: journaled and taken, or refused. -/
def serveRecord (self : CoordinatorLoop) (staged : Except Error Allocator.Staged)
    (journal : Except Error Unit) : CoordinatorLoop × Except CoordinatorError Nat :=
  match staged with
  | .error source => (self, .error (.unassignable source))
  | .ok staged => match journal with
    | .error source => (self, .error (.journal source))
    | .ok () => (self.taken staged, .ok staged.entry.version)

def serveTrim (self : CoordinatorLoop) (topic : TopicId) (partition start : Nat)
    (journal : Except Error Unit) : CoordinatorLoop × Except CoordinatorError Nat :=
  self.serveRecord (self.allocator.stageTrim topic partition start) journal

def serveRetention (self : CoordinatorLoop) (topic : TopicId) (retentionMs : Option Int)
    (journal : Except Error Unit) : CoordinatorLoop × Except CoordinatorError Nat :=
  self.serveRecord (self.allocator.stageRetention topic retentionMs) journal

/-- The spans a commit journals, each with the base offset it was given. -/
def journaledBy (self : CoordinatorLoop) (request : LoopRequest × Except Error Unit) :
    List (CommittedSpan × Nat) :=
  match request with
  | (.commit object spans writtenAt, .ok ()) =>
    let admitted := (self.allocator.admitSpans spans).admitted.map Prod.snd
    if admitted.isEmpty then []
    else match self.allocator.stage object admitted writtenAt with
      | .error _ => []
      | .ok staged => admitted.zip (staged.assignments.map Assignment.baseOffset)
  | _ => []

/-- One turn of the loop, with what the journal answered. -/
def turn (self : CoordinatorLoop) (request : LoopRequest × Except Error Unit) : CoordinatorLoop :=
  match request.1 with
  | .commit object spans writtenAt => (self.serve object spans writtenAt request.2).1
  | .trim topic partition start => (self.serveTrim topic partition start request.2).1
  | .retention topic retentionMs => (self.serveRetention topic retentionMs request.2).1

def run (requests : List (LoopRequest × Except Error Unit)) : CoordinatorLoop :=
  requests.foldl turn {}

/-- The records a request stages without offsets. -/
def Stageable (allocator : Allocator) : MetadataRecord → Prop
  | .trimmed topic partition start => start ≤ (allocator.endOffset (topic, partition)).getD 0
  | .topicRetentionChanged _ _ => True
  | _ => False

theorem Stageable.not_commit {allocator : Allocator} {record : MetadataRecord}
    (h : Stageable allocator record) (object : ObjectKey) (spans : List CommittedSpan)
    (writtenAt : Nat) : record ≠ .batchCommitted object spans writtenAt := by
  rintro rfl
  exact h

/-- What one turn can do: nothing, or take one position that was staged. -/
theorem turn_cases (self : CoordinatorLoop) (request : LoopRequest × Except Error Unit) :
    (self.turn request = self ∧ self.journaledBy request = []) ∨
    (∃ object spans writtenAt staged, request.1 = .commit object spans writtenAt ∧
      self.allocator.stage object ((self.allocator.admitSpans spans).admitted.map Prod.snd) writtenAt =
        .ok staged ∧ self.turn request = self.taken staged ∧
      self.journaledBy request = ((self.allocator.admitSpans spans).admitted.map Prod.snd).zip
        (staged.assignments.map Assignment.baseOffset)) ∨
    (∃ record staged, Stageable self.allocator record ∧
      self.allocator.stageRecord record = .ok staged ∧ self.turn request = self.taken staged ∧
      self.journaledBy request = []) := by
  obtain ⟨request, journal⟩ := request
  have record : ∀ staged, (self.serveRecord staged journal).1 = self ∨
      ∃ x, staged = .ok x ∧ (self.serveRecord staged journal).1 = self.taken x := by
    intro staged
    cases staged with
    | error source => exact .inl rfl
    | ok x =>
      cases journal with
      | error source => exact .inl rfl
      | ok _ => exact .inr ⟨x, rfl, rfl⟩
  cases request with
  | commit object spans writtenAt =>
    simp only [turn, serve]
    cases journal with
    | error source =>
      refine .inl ⟨?_, rfl⟩
      split
      · rfl
      · split <;> rfl
    | ok _ =>
      simp only [journaledBy]
      split
      · exact .inl ⟨rfl, rfl⟩
      · split
        · exact .inl ⟨rfl, rfl⟩
        · rename_i staged hstaged
          exact .inr (.inl ⟨object, spans, writtenAt, staged, rfl, hstaged, rfl, rfl⟩)
  | trim topic partition start =>
    obtain h | ⟨staged, hstaged, h⟩ := record (self.allocator.stageTrim topic partition start)
    · exact .inl ⟨h, rfl⟩
    · obtain ⟨inside, hrecord⟩ := Allocator.stageTrim_eq_ok.mp hstaged
      exact .inr (.inr ⟨.trimmed topic partition start, staged, inside, hrecord, h, rfl⟩)
  | retention topic retentionMs =>
    obtain h | ⟨staged, hstaged, h⟩ := record (self.allocator.stageRetention topic retentionMs)
    · exact .inl ⟨h, rfl⟩
    · exact .inr (.inr ⟨.topicRetentionChanged topic retentionMs, staged, trivial, hstaged, h, rfl⟩)

end CoordinatorLoop

namespace Allocator

/-- Within its cap, with every tracked line in both maps. -/
structure Bounded (a : Allocator) : Prop where
  tracked : Tracked a.producerState a.producerRecency
  within : a.producerState.keys.card ≤ maxTrackedProducers

theorem Bounded.empty : Bounded {} where
  tracked := Tracked.empty
  within := Nat.zero_le _

/-- The producer lines with a commit's own touched, before anything is evicted. -/
def touched (a : Allocator) (ends : List (ProducerLine × ProducerState)) :
    (Finmap fun _ : ProducerLine => ProducerState) × Recency ProducerLine :=
  ends.foldl (fun held e => (held.1.insert e.1 e.2, held.2.touch e.1))
    (a.producerState, a.producerRecency)

theorem Tracked.foldl_touch (ends : List (ProducerLine × ProducerState))
    {held : (Finmap fun _ : ProducerLine => ProducerState) × Recency ProducerLine}
    (tracked : Tracked held.1 held.2) :
    Tracked (ends.foldl (fun held e => (held.1.insert e.1 e.2, held.2.touch e.1)) held).1
      (ends.foldl (fun held e => (held.1.insert e.1 e.2, held.2.touch e.1)) held).2 := by
  induction ends generalizing held with
  | nil => exact tracked
  | cons e rest ih => exact ih (tracked.touch e.1 e.2)

theorem apply_producers (a : Allocator) (staged : Staged) :
    ((a.apply staged).1.producerState, (a.apply staged).1.producerRecency) =
      evictOverCap (a.touched staged.producerEnds).1 (a.touched staged.producerEnds).2
        maxTrackedProducers := rfl

theorem Bounded.apply {a : Allocator} (bounded : a.Bounded) (staged : Staged) :
    (a.apply staged).1.Bounded :=
  have tracked := Tracked.foldl_touch staged.producerEnds bounded.tracked
  ⟨tracked.evictOverCap maxTrackedProducers, tracked.evictOverCap_le maxTrackedProducers⟩

/-- Taking a position without producers evicts nothing: the cap was kept already. -/
theorem Bounded.apply_record {a : Allocator} (bounded : a.Bounded) {record : MetadataRecord}
    {staged : Staged} (h : a.stageRecord record = .ok staged) :
    (a.apply staged).1 = { a with nextVersion := a.nextVersion + 1 } := by
  obtain ⟨-, rfl⟩ := stageRecord_eq_ok.mp h
  have kept := @evictOverCap_of_le a.producerState a.producerRecency _ bounded.within
  unfold Allocator.apply
  dsimp only [List.foldl_nil]
  rw [kept]

end Allocator

namespace CoordinatorLoop

/-- The allocator is what replaying the journaled entries gives, and within its cap. -/
structure Live (loop : CoordinatorLoop) : Prop where
  replays : loop.log.foldlM Allocator.replay {} = .ok loop.allocator
  bounded : loop.allocator.Bounded

theorem Live.initial : Live {} where
  replays := rfl
  bounded := Allocator.Bounded.empty

theorem Live.turn {self : CoordinatorLoop} (live : self.Live)
    (request : LoopRequest × Except Error Unit) : (self.turn request).Live := by
  obtain ⟨h, -⟩ | ⟨object, spans, writtenAt, staged, -, hstaged, h, -⟩ |
    ⟨record, staged, kind, hstaged, h, -⟩ := self.turn_cases request
  · rw [h]
    exact live
  · rw [h]
    refine ⟨?_, live.bounded.apply staged⟩
    have hentry : staged.entry = ⟨self.allocator.nextVersion, .batchCommitted object
        ((self.allocator.admitSpans spans).admitted.map Prod.snd) writtenAt⟩ := by
      obtain ⟨acc, -, -, rfl⟩ := Allocator.stage_eq_ok.mp hstaged
      rfl
    unfold taken
    rw [foldlM_snoc, live.replays, bind_ok, hentry]
    exact Allocator.replay_commit.mpr ⟨Nat.le_refl _, staged, hstaged, rfl⟩
  · rw [h]
    refine ⟨?_, live.bounded.apply staged⟩
    have taken := live.bounded.apply_record hstaged
    obtain ⟨fits, rfl⟩ := Allocator.stageRecord_eq_ok.mp hstaged
    unfold CoordinatorLoop.taken
    rw [foldlM_snoc, live.replays, bind_ok]
    exact (Allocator.replay_other kind.not_commit).mpr ⟨Nat.le_refl _, fits, taken⟩

theorem Live.run (requests : List (LoopRequest × Except Error Unit)) :
    (CoordinatorLoop.run requests).Live := by
  have whole : ∀ self : CoordinatorLoop, self.Live → (requests.foldl CoordinatorLoop.turn self).Live := by
    induction requests with
    | nil => exact fun self live => live
    | cons request rest ih => exact fun self live => ih _ (live.turn request)
  exact whole {} Live.initial

end CoordinatorLoop

end Oqueue
