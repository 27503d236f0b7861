import Oqueue.Group.Records
import Oqueue.Library.Steps

/-!
# Many writers of one group log

Offset commits run beside each other and beside the one task that takes the groups'
transitions in turn. Each chooses a version, appends there and, when another writer was
first, chooses again. A call is cut where it waits, and before every lock it takes. The
store answers every put of a node that runs: the segment landed, or its key was taken.
-/

namespace Oqueue.GroupLog

open Log

/-- `MAX_COMMIT_RETRIES` and `MAX_APPEND_RETRIES`. -/
def maxRetries : Nat := 8

/-- Where a writer is with its record. -/
inductive Phase where
  /-- Waiting for the transitions' task. -/
  | queued
  /-- A transition that was not legal when its turn came; nothing is appended. -/
  | refused (error : Error)
  | reading
  | appending (entry : Entry)
  | putting (entry : Entry) (append : Log.Append Entry)
  | landed (entry : Entry) (append : Log.Append Entry)
  /-- The append has returned, and what it means has not been applied. -/
  | logged (entry : Entry)
  | answered (answer : Except Error Unit)
  deriving DecidableEq

structure Writer where
  record : Record
  lost : Nat := 0
  phase : Phase
  deriving DecidableEq

structure World where
  store : Store := {}
  log : State Entry
  coordinator : GroupCoordinator := {}
  offsets : Offsets := ∅
  writers : Nat → Option Writer := fun _ => none
  queue : List Nat := []
  serving : Option Nat := none
  /-- What landed, in its order, and whose it is; kept for the proofs. -/
  line : List (Nat × Entry) := []

inductive Action where
  | commit (id : Nat) (record : Record)
  | enqueue (id : Nat) (record : Record)
  /-- The transitions' task takes the next request. -/
  | receive
  | read (id : Nat)
  | append (id : Nat)
  | put (id : Nat)
  | publish (id : Nat)
  | finish (id : Nat)
  deriving DecidableEq

namespace World

def setWriter (self : World) (id : Nat) (writer : Writer) : World :=
  { self with writers := Function.update self.writers id (some writer) }

def move (self : World) (id : Nat) (writer : Writer) (phase : Phase) : World :=
  self.setWriter id { writer with phase }

/-- Ends a call with an error; the transitions' task is then free. -/
def fail (self : World) (id : Nat) (writer : Writer) (error : Error) : World :=
  { self.move id writer (.answered (.error error)) with
    serving := if self.serving = some id then none else self.serving }

/-- A race lost: chosen again, so often. -/
def retry (self : World) (id : Nat) (writer : Writer) : World :=
  let writer := { writer with lost := writer.lost + 1 }
  if writer.lost < maxRetries then self.move id writer .reading
  else self.fail id writer .transient

/-- `handle_one` and `update_roster`, up to the append. -/
def receive (self : World) (id : Nat) (writer : Writer) : World :=
  match writer.record.val with
  | .groupTransitioned group event =>
    match ((self.coordinator.record group).getD .fresh).transition event with
    | .error error => self.move id writer (.refused error)
    | .ok _ => { self.move id writer .reading with serving := some id }
  | _ => { self.move id writer .reading with serving := some id }

def append (self : World) (id : Nat) (writer : Writer) (entry : Entry) : World :=
  match self.log.append groupSegments [entry] with
  | .ok (some append) => self.move id writer (.putting entry append)
  | .ok none => self.move id writer (.logged entry)
  | .error (.nonMonotonicCommitVersion _ _) => self.retry id writer
  | .error error => self.fail id writer error

/-- A put at a store that fails no request: `append` passes on any other error of the store's as
it is, and that branch is left out. -/
def put (self : World) (id : Nat) (writer : Writer) (entry : Entry) (append : Log.Append Entry) :
    World :=
  match self.store.putSegment append with
  | some store => { self.move id writer (.landed entry append) with
      store
      line := self.line ++ [(id, entry)] }
  -- this error is not the one that is retried
  | none => self.fail id { writer with lost := writer.lost + 1 }
      (.preconditionFailed (Key.segment append.seq).text)

def publish (self : World) (id : Nat) (writer : Writer) (entry : Entry)
    (append : Log.Append Entry) : World :=
  match self.log.appended append with
  | .ok log => { self.move id writer (.logged entry) with log }
  | .error error => self.fail id writer error

/-- What a record means once it is logged. -/
def applied (self : World) (record : GroupMetadataRecord) (version : Nat) : Except Error World :=
  match record with
  | .offsetCommitted .. => .ok { self with offsets := record.apply version self.offsets }
  | .groupTransitioned group event => do
    let (coordinator, _) ← self.coordinator.transition group event
    return { self with coordinator :=
      if event = .allMembersGone ∨ event = .expire then coordinator.setRoster group none
      else coordinator }
  | .groupRosterUpdated group roster =>
    .ok { self with coordinator := self.coordinator.setRoster group roster }

def finish (self : World) (id : Nat) (writer : Writer) (entry : Entry) : World :=
  match self.applied writer.record.val entry.val.version with
  | .error error => self.fail id writer error
  | .ok self => { self.move id writer (.answered (.ok ())) with
      serving := if self.serving = some id then none else self.serving }

def step (self : World) : Action → Option World
  | .commit id record =>
    if (self.writers id).isSome ∨ record.val.committed.isNone then none
    else some (self.setWriter id { record, phase := .reading })
  | .enqueue id record =>
    if (self.writers id).isSome ∨ record.val.committed.isSome then none
    else some { self.setWriter id { record, phase := .queued } with queue := self.queue ++ [id] }
  | .receive => match self.queue, self.serving with
    | id :: queue, none => (self.writers id).map fun writer =>
      { self with queue }.receive id writer
    | _, _ => none
  | .read id => (self.writers id).bind fun writer =>
    if writer.phase = .reading then
      match nextEntry (lastVersion groupSegments self.log.entries) writer.record with
      | .ok entry => some (self.move id writer (.appending entry))
      | .error error => some (self.fail id writer error)
    else none
  | .append id => (self.writers id).bind fun writer => match writer.phase with
    | .appending entry => some (self.append id writer entry)
    | _ => none
  | .put id => (self.writers id).bind fun writer => match writer.phase with
    | .putting entry append => some (self.put id writer entry append)
    | _ => none
  | .publish id => (self.writers id).bind fun writer => match writer.phase with
    | .landed entry append => some (self.publish id writer entry append)
    | _ => none
  | .finish id => (self.writers id).bind fun writer => match writer.phase with
    | .logged entry => some (self.finish id writer entry)
    | _ => none

end World

end Oqueue.GroupLog
