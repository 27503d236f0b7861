import Oqueue.Coordinator.Allocator

/-!
# Producer-sequence admission

Every span that carries a producer identity is classified against its line's
state before any offset is assigned: admitted, answered from what already
committed, or refused. A producer's own spans in one bundle are checked against
each other first.
-/

namespace Oqueue

def i32Max : Int := 2147483647

/-- The sequence a producer's next batch is expected to carry, after `last`. -/
def nextSequence (last : Int) : Int := if last = i32Max then 0 else last + 1

inductive RejectReason where
  | outOfOrder
  | duplicate
  | staleEpoch
  deriving DecidableEq, Repr

/-- What `admitSpans` decided about every span, each tagged with its position. -/
structure Admission where
  admitted : List (Nat × CommittedSpan) := []
  replayed : List (Nat × TopicId × Nat × Assignment) := []
  rejected : List (Nat × TopicId × Nat × RejectReason) := []
  deriving DecidableEq, Repr

inductive Decision where
  | admits
  | replay (state : ProducerState)
  | reject (reason : RejectReason)
  deriving DecidableEq, Repr

/-- One span's sequence against its line's state. A replay may only be answered
from a state that already has its offset. -/
def classify (current : Option ProducerState) (provisional : Bool) (sequence : Int)
    (epoch recordCount : Nat) : Decision :=
  match current with
  | none => if sequence = 0 then .admits else .reject .outOfOrder
  | some state =>
    if epoch < state.epoch then .reject .staleEpoch
    else if state.epoch < epoch then
      if sequence = 0 then .admits else .reject .outOfOrder
    else if sequence = nextSequence state.sequence then .admits
    else if !provisional && decide (sequence = state.sequence) then
      if recordCount = state.recordCount then .replay state else .reject .duplicate
    else .reject .outOfOrder

abbrev RunningLines := Finmap fun _ : ProducerLine => ProducerState

def recordDecision (admission : Admission) (running : RunningLines) (line : ProducerLine)
    (index : Nat) (span : CommittedSpan) : Decision → Admission × RunningLines
  | .admits =>
    let running := match span.producer with
      | some identity => running.insert line
          (.provisional identity.epoch identity.sequence span.recordCount)
      | none => running
    ({ admission with admitted := admission.admitted ++ [(index, span)] }, running)
  | .replay state =>
    ({ admission with replayed := admission.replayed ++
        [(index, span.topic, span.partition,
          ⟨span.topic, span.partition, state.baseOffset, state.recordCount⟩)] }, running)
  | .reject reason =>
    ({ admission with rejected := admission.rejected ++
        [(index, span.topic, span.partition, reason)] }, running)

namespace Allocator

/-- Which map answers decides whether a replay may trust the offset it finds. -/
def currentLine (self : Allocator) (running : RunningLines) (line : ProducerLine) :
    Option ProducerState × Bool :=
  match running.lookup line with
  | some state => (some state, true)
  | none => (self.producerState.lookup line, false)

def admitSpan (self : Allocator) (held : Admission × RunningLines) (item : CommittedSpan × Nat) :
    Admission × RunningLines :=
  match item.1.producer with
  | none => ({ held.1 with admitted := held.1.admitted ++ [(item.2, item.1)] }, held.2)
  | some identity =>
    let line := (identity.id, item.1.topic, item.1.partition)
    let current := self.currentLine held.2 line
    recordDecision held.1 held.2 line item.2 item.1
      (classify current.1 current.2 identity.sequence identity.epoch item.1.recordCount)

/-- Partitions `spans` by what their producer sequence, if any, decides. -/
def admitSpans (self : Allocator) (spans : List CommittedSpan) : Admission :=
  (spans.zipIdx.foldl self.admitSpan ({}, ∅)).1

end Allocator

end Oqueue
