import Oqueue.Core.Types

/-!
# The state of a consumer group

Every group moves through five states, and its generation grows when a join barrier
completes. Generations and epochs are the wire's `int32`, whose checked addition stops
the node before a generation could come round again.
-/

namespace Oqueue

inductive GroupEvent where
  | join
  | joinBarrierComplete
  | syncComplete
  | memberJoinedDuringSync
  | memberLeft
  | allMembersGone
  | expire
  deriving DecidableEq, Repr

def GroupEvent.debug : GroupEvent → String
  | .join => "Join"
  | .joinBarrierComplete => "JoinBarrierComplete"
  | .syncComplete => "SyncComplete"
  | .memberJoinedDuringSync => "MemberJoinedDuringSync"
  | .memberLeft => "MemberLeft"
  | .allMembersGone => "AllMembersGone"
  | .expire => "Expire"

inductive GroupState where
  | empty
  | preparingRebalance
  | completingRebalance
  | stable
  | dead
  deriving DecidableEq, Repr

def GroupState.debug : GroupState → String
  | .empty => "Empty"
  | .preparingRebalance => "PreparingRebalance"
  | .completingRebalance => "CompletingRebalance"
  | .stable => "Stable"
  | .dead => "Dead"

structure GroupRecord where
  state : GroupState
  generation : Int
  assignmentEpoch : Int
  deriving DecidableEq, Repr

namespace GroupRecord

def fresh : GroupRecord := ⟨.empty, 0, -1⟩

/-- `GroupState::transition`, on the whole record. -/
def transition (self : GroupRecord) (event : GroupEvent) : Except Error GroupRecord :=
  match self.state, event with
  | .empty, .join
  | .stable, .join
  | .completingRebalance, .memberJoinedDuringSync
  | .preparingRebalance, .memberLeft
  | .stable, .memberLeft
  | .completingRebalance, .memberLeft => .ok { self with state := .preparingRebalance }
  | .empty, .expire => .ok { self with state := .dead }
  | .preparingRebalance, .joinBarrierComplete =>
    .ok { self with state := .completingRebalance, generation := self.generation + 1 }
  | .preparingRebalance, .allMembersGone
  | .stable, .allMembersGone
  | .completingRebalance, .allMembersGone => .ok { self with state := .empty }
  | .completingRebalance, .syncComplete =>
    .ok { self with state := .stable, assignmentEpoch := self.generation }
  | state, event => .error (.illegalGroupTransition state.debug event.debug)

/-- An event that is taken leads where it always leads, and only a completed barrier
moves the generation. -/
theorem transition_eq_ok {self next : GroupRecord} {event : GroupEvent}
    (h : self.transition event = .ok next) :
    match event with
    | .join =>
      (self.state = .empty ∨ self.state = .stable) ∧ next = { self with state := .preparingRebalance }
    | .memberJoinedDuringSync =>
      self.state = .completingRebalance ∧ next = { self with state := .preparingRebalance }
    | .memberLeft =>
      (self.state = .preparingRebalance ∨ self.state = .stable ∨
        self.state = .completingRebalance) ∧ next = { self with state := .preparingRebalance }
    | .expire => self.state = .empty ∧ next = { self with state := .dead }
    | .joinBarrierComplete => self.state = .preparingRebalance ∧
      next = { self with state := .completingRebalance, generation := self.generation + 1 }
    | .allMembersGone =>
      (self.state = .preparingRebalance ∨ self.state = .stable ∨
        self.state = .completingRebalance) ∧ next = { self with state := .empty }
    | .syncComplete => self.state = .completingRebalance ∧
      next = { self with state := .stable, assignmentEpoch := self.generation } := by
  obtain ⟨state, generation, epoch⟩ := self
  cases event <;> cases state <;> cases h <;> simp

theorem generation_transition {self next : GroupRecord} {event : GroupEvent}
    (h : self.transition event = .ok next) :
    next.generation = if event = .joinBarrierComplete then self.generation + 1
      else self.generation := by
  have spec := transition_eq_ok h
  cases event <;> simp only at spec <;> rw [spec.2] <;> rfl

theorem generation_le_transition {self next : GroupRecord} {event : GroupEvent}
    (h : self.transition event = .ok next) : self.generation ≤ next.generation := by
  rw [generation_transition h]
  split <;> omega

end GroupRecord

structure GroupRosterSnapshot where
  protocolType : String
  protocolName : String
  memberIds : List String
  deriving DecidableEq, Repr

inductive Refusal where
  | coordinatorLoadInProgress
  | notCoordinator
  | coordinatorNotAvailable
  | unknownMember
  | illegalGeneration
  | rebalanceInProgress
  deriving DecidableEq, Repr

def Refusal.errorCode : Refusal → Int
  | .coordinatorLoadInProgress => 14
  | .notCoordinator => 16
  | .coordinatorNotAvailable => 15
  | .unknownMember => 25
  | .illegalGeneration => 22
  | .rebalanceInProgress => 27

structure FencingContext where
  isCoordinator : Bool := true
  coordinatorAvailable : Bool := true
  loadInProgress : Bool
  memberTracked : Bool
  record : Option GroupRecord
  generationId : Option Int
  acceptableStates : Option (List GroupState)

def fence (ctx : FencingContext) : Except Refusal Unit :=
  if ctx.loadInProgress then .error .coordinatorLoadInProgress
  else if !ctx.isCoordinator then .error .notCoordinator
  else if !ctx.coordinatorAvailable then .error .coordinatorNotAvailable
  else if !ctx.memberTracked then .error .unknownMember
  else match ctx.record with
    | none => .error .unknownMember
    | some record =>
      if ctx.generationId.any (· ≠ record.generation) then .error .illegalGeneration
      else if ctx.acceptableStates.any (record.state ∉ ·) then .error .rebalanceInProgress
      else .ok ()

end Oqueue
