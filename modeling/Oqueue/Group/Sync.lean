import Oqueue.Library.Steps
import Oqueue.Group.Barrier

/-!
# `SyncGroup` handlers of one group

A handler is cut at every lock and every await. The coordinator's record moves when
the transitions actor serves an event, a handler's or anyone else's; removals refuse a
generation once the event they enqueued has been answered. Wakers write the cell first
and wake the waiters after, so a task may be between the two.
-/

namespace Oqueue

structure SyncGroupRequest where
  version : Nat
  memberId : String
  generationId : Int
  protocolType : Option String := none
  protocolName : Option String := none
  assignments : List (String × List UInt8) := []
  deriving DecidableEq, Repr

structure SyncGroupResponse where
  errorCode : Int
  protocolType : Option String
  protocolName : Option String
  assignment : List UInt8
  deriving DecidableEq, Repr

namespace SyncGroup

def refusal (refused : Refusal) : SyncGroupResponse := ⟨refused.errorCode, none, none, []⟩

/-- A member's own slice of the map, empty if the map does not name it. -/
def responseFor (map : AssignmentMap) (request : SyncGroupRequest) : SyncGroupResponse where
  errorCode := 0
  protocolType := if 5 ≤ request.version then request.protocolType else none
  protocolName := if 5 ≤ request.version then request.protocolName else none
  assignment := (map.lookup request.memberId).getD []

/-- The map a submission carries; of two entries for one member the later stands. -/
def submittedMap (request : SyncGroupRequest) : AssignmentMap :=
  request.assignments.foldl (fun map entry => map.insert entry.1 entry.2) ∅

def isStableAt (record : Option GroupRecord) (generation : Int) : Bool :=
  record.any fun record => record.state == .stable && record.generation == generation

inductive Task where
  -- `submit_assignment`
  | completing (request : SyncGroupRequest)
  | completed (request : SyncGroupRequest) (answer : Except Error GroupRecord)
  | submitting (request : SyncGroupRequest)
  /-- About to refuse a generation, and to answer its own request if it has one. -/
  | refusing (generation : Int) (reply : Option (SyncGroupRequest × Refusal))
  /-- The cell is written and the waiters are still to be woken. -/
  | waking
  -- `wait_for_assignment`
  | arriving (request : SyncGroupRequest)
  | armed (request : SyncGroupRequest) (woken : Bool)
  | parked (request : SyncGroupRequest) (woken : Bool)

/-- A registered waiter is marked; nobody else hears of it. -/
def Task.wake : Task → Task
  | .armed request _ => .armed request true
  | .parked request _ => .parked request true
  | task => task

/-- An acceptance is recorded with the record it was made under, an answer where the
cell is read. -/
inductive Event where
  | submitted (request : SyncGroupRequest) (record : Option GroupRecord)
  | answered (request : SyncGroupRequest) (response : SyncGroupResponse)

structure World where
  record : Option GroupRecord := none
  cell : Option GroupAssignment := none
  tasks : Nat → Option Task := fun _ => none
  history : List Event := []

inductive Action where
  /-- A request arrives; what heartbeats and the replay gate say of it is given. -/
  | request (id : Nat) (request : SyncGroupRequest) (memberTracked loadInProgress : Bool)
  /-- The actor serves a handler's event, and its append lands or does not. -/
  | serve (id : Nat) (lands : Bool)
  /-- The actor serves anyone else's event. -/
  | transition (event : GroupEvent)
  /-- Somebody else sets out to refuse a generation. -/
  | refuse (id : Nat) (generation : Int)
  | resume (id : Nat)
  | deadline (id : Nat)
  /-- The handler is gone, wherever it waits. -/
  | drop (id : Nat)

def Action.concerns : Action → Option Nat
  | .request id _ _ _ | .serve id _ | .refuse id _ | .resume id | .deadline id | .drop id => some id
  | .transition _ => none

namespace World

def setTask (self : World) (id : Nat) (task : Option Task) : World :=
  { self with tasks := Function.update self.tasks id task }

def transition (self : World) (event : GroupEvent) : World × Except Error GroupRecord :=
  match (self.record.getD .fresh).transition event with
  | .ok record => ({ self with record := some record }, .ok record)
  | .error refusal => (self, .error refusal)

def answer (self : World) (request : SyncGroupRequest) (response : SyncGroupResponse) : World :=
  { self with history := self.history ++ [.answered request response] }

def notifyWaiters (self : World) : World :=
  { self with tasks := fun id => (self.tasks id).map Task.wake }

/-- `handle`, up to its first await. -/
def request (self : World) (id : Nat) (request : SyncGroupRequest)
    (memberTracked loadInProgress : Bool) : World :=
  match fence { loadInProgress, memberTracked, record := self.record
                generationId := some request.generationId
                acceptableStates := some [.completingRebalance, .stable] } with
  | .error refused => self.answer request (refusal refused)
  | .ok () =>
    if request.assignments ≠ [] then self.setTask id (some (.completing request))
    else self.setTask id (some (.arriving request))

/-- `submit_assignment`, once the transition is answered. -/
def completed (self : World) (id : Nat) (request : SyncGroupRequest)
    (answer : Except Error GroupRecord) : World :=
  let judge (record : Option GroupRecord) : World :=
    if isStableAt record request.generationId then self.setTask id (some (.submitting request))
    else self.setTask id
      (some (.refusing request.generationId (some (request, .rebalanceInProgress))))
  match answer with
  | .ok record => judge (some record)
  | .error (.illegalGroupTransition _ _) => judge self.record
  | .error _ => self.setTask id
      (some (.refusing request.generationId (some (request, .coordinatorNotAvailable))))

/-- The map is submitted under the cell's lock, where the record is asked again. -/
def submit (self : World) (id : Nat) (request : SyncGroupRequest) : World :=
  match SyncGroups.submit self.cell request.generationId (submittedMap request)
      (isStableAt self.record request.generationId) with
  | (_, none) => self.setTask id
      (some (.refusing request.generationId (some (request, .rebalanceInProgress))))
  | (cell, some map) =>
    let submitted : World := { self with
      cell
      history := self.history ++ [.submitted request self.record] }
    (submitted.answer request (responseFor map request)).setTask id (some .waking)

def refuse (self : World) (id : Nat) (generation : Int)
    (reply : Option (SyncGroupRequest × Refusal)) : World :=
  let (cell, written) := SyncGroups.refuse self.cell generation
  let refused : World := { self with cell }
  let replied := match reply with
    | none => refused
    | some (request, code) => refused.answer request (refusal code)
  replied.setTask id (if written then some .waking else none)

/-- What a look at the cell tells a follower, if it tells it anything. -/
def told (self : World) (request : SyncGroupRequest) : Option SyncGroupResponse :=
  match assignmentFor self.cell request.generationId with
  | .mine map => some (responseFor map request)
  | .superseded | .refused => some (refusal .rebalanceInProgress)
  | .waiting => none

def resume (self : World) (id : Nat) : Task → Option World
  | .completing _ => none
  | .completed request answer => some (self.completed id request answer)
  | .submitting request => some (self.submit id request)
  | .refusing generation reply => some (self.refuse id generation reply)
  | .waking => some (self.notifyWaiters.setTask id none)
  | .arriving request => some (self.setTask id (some (.armed request false)))
  | .armed request woken =>
    match self.told request with
    | some response => some ((self.answer request response).setTask id none)
    | none => some (self.setTask id (some (.parked request woken)))
  | .parked request woken =>
    if woken then some (self.setTask id (some (.armed request false))) else none

def step (self : World) : Action → Option World
  | .request id request memberTracked loadInProgress =>
    if (self.tasks id).isSome then none
    else some (self.request id request memberTracked loadInProgress)
  | .serve id lands =>
    match self.tasks id with
    | some (.completing request) =>
      let (served, answer) := if lands then self.transition .syncComplete
        else (self, (self.transition .syncComplete).2.bind fun _ => .error .transient)
      some (served.setTask id (some (.completed request answer)))
    | _ => none
  | .transition event => some (self.transition event).1
  | .refuse id generation =>
    if (self.tasks id).isSome then none
    else some (self.setTask id (some (.refusing generation none)))
  | .resume id => do
    let task ← self.tasks id
    self.resume id task
  | .deadline id =>
    match self.tasks id with
    | some (.parked request _) =>
      let response := (self.told request).getD (refusal .rebalanceInProgress)
      some ((self.answer request response).setTask id none)
    | _ => none
  | .drop id =>
    match self.tasks id with
    | some (.completing _) | some (.parked _ _) => some (self.setTask id none)
    | _ => none

end World

end SyncGroup

end Oqueue
