import Oqueue.Library.Steps
import Oqueue.Log.Segments

/-!
# One writer and any readers

A log in its store, the process that writes it and those that only open it. The
writer appends one segment at a time and takes checkpoints beside its appends; it
may crash at any moment, with requests still on their way, and another then opens
the log and goes on. What landed and what was acknowledged is kept on the side.
-/

namespace Oqueue.Log

inductive Call (Entry : Type) where
  | opening (opening : Opening Entry)
  | opened (state : State Entry)
  | appending (append : Append Entry)
  | appended (append : Append Entry)
  | refused
  | checkpointing (checkpoint : Checkpoint)
  deriving DecidableEq, Repr

/-- The process that writes; its state is there once its `open` returned. How long
the line was when it started is kept for the proofs. -/
structure Writer (Entry : Type) where
  incarnation : Nat
  since : Nat
  state : Option (State Entry) := none
  waiting : Option Nat := none
  deriving DecidableEq, Repr

structure World (Entry : Type) where
  store : Store := {}
  /-- Every segment that landed at the log's end, with the writer it came from. -/
  line : List (Nat × List Entry) := []
  /-- The segments whose append returned. -/
  acked : List Nat := []
  incarnations : Nat := 0
  writer : Option (Writer Entry) := none
  calls : Nat → Option (Option Nat × Call Entry) := fun _ => none

inductive Action (Entry : Type) where
  /-- Another process opens the log. -/
  | read (id : Nat)
  /-- A writer starts, where none is, and opens the log. -/
  | boot (id : Nat)
  | append (id : Nat) (entries : List Entry)
  | checkpoint (id : Nat)
  /-- A request lands and is answered. -/
  | serve (id : Nat)
  /-- A request lands and its answer is lost. -/
  | unheard (id : Nat)
  | retire (id : Nat) (key : Key)
  /-- An answer arrives at the writer. -/
  | resume (id : Nat)
  /-- The writer's append ends in an error; its request may still land. -/
  | giveUp
  /-- A call ends, and what it has not sent never is. -/
  | abandon (id : Nat)
  | crash

variable {Entry : Type} (F : SegmentFormat Entry)

namespace World

def setCall (self : World Entry) (id : Nat) (call : Option (Option Nat × Call Entry)) :
    World Entry :=
  { self with calls := Function.update self.calls id call }

def segments (self : World Entry) : List (List Entry) := self.line.map Prod.snd

/-- The entries whose append returned, in the order of their segments. -/
def acknowledged (self : World Entry) : List Entry :=
  self.acked.flatMap fun seq => (self.segments[seq]?).getD []

/-- A segment lands if absent; at the end of the line it takes the line further. -/
def land (self : World Entry) (owner : Nat) (append : Append Entry) : Option (World Entry) :=
  (self.store.putSegment append).map fun store => { self with
    store
    line := if append.seq = self.line.length then self.line ++ [(owner, append.entries)]
      else self.line }

/-- The store serves the request a call waits on: the world after it, and where
the call then is. -/
def serve (self : World Entry) (owner : Option Nat) :
    Call Entry → Option (World Entry × Option (Call Entry))
  | .opening opening => match opening.serve F self.store with
    | .inl opening => some (self, some (.opening opening))
    | .inr (.ok state) => some (self, some (.opened state))
    | .inr (.error _) => some (self, none)
  | .appending append => owner.bind fun owner => match self.land owner append with
    | some landed => some (landed, some (.appended append))
    | none => some (self, some .refused)
  | .checkpointing checkpoint =>
    (self.store.serveCheckpoint checkpoint).map fun (store, next) =>
      ({ self with store }, next.getLeft?.map .checkpointing)
  | _ => none

def setWriter (self : World Entry) (writer : Writer Entry) : World Entry :=
  { self with writer := some writer }

def resume (self : World Entry) (writer : Writer Entry) (id : Nat) :
    Call Entry → Option (World Entry)
  | .opened state =>
    if writer.state.isSome then none
    else some ((self.setWriter { writer with state := some state }).setCall id none)
  | .appended append =>
    if writer.waiting ≠ some id then none
    else writer.state.map fun state => match state.appended append with
      | .ok state => ({ self with acked := self.acked ++ [append.seq] }.setWriter
          { writer with state := some state, waiting := none }).setCall id none
      | .error _ => (self.setWriter { writer with waiting := none }).setCall id none
  | .refused =>
    if writer.waiting ≠ some id then none
    else some ((self.setWriter { writer with waiting := none }).setCall id none)
  | .checkpointing checkpoint => do
    let state ← writer.state
    let (state, checkpoint) ← state.resume checkpoint
    return (self.setWriter { writer with state := some state }).setCall id
      (some (some writer.incarnation, .checkpointing checkpoint))
  | _ => none

/-- A call the writer begins, where the id is free and its `open` has returned. -/
def begin (self : World Entry) (id : Nat)
    (call : Writer Entry → State Entry → Option (World Entry)) : Option (World Entry) := do
  if (self.calls id).isSome then none
  else
    let writer ← self.writer
    let state ← writer.state
    call writer state

def step (self : World Entry) : Action Entry → Option (World Entry)
  | .read id =>
    if (self.calls id).isSome then none
    else some (self.setCall id (some (none, .opening (.basing .first))))
  | .boot id =>
    if (self.calls id).isSome || self.writer.isSome then none
    else some (({ self with incarnations := self.incarnations + 1 }.setWriter
      { incarnation := self.incarnations, since := self.line.length }).setCall id
        (some (some self.incarnations, .opening (.basing .first))))
  | .append id entries => self.begin id fun writer state =>
    if writer.waiting.isSome then none
    else match state.append F entries with
      | .ok (some append) => some ((self.setWriter { writer with waiting := some id }).setCall id
          (some (some writer.incarnation, .appending append)))
      | _ => none
  | .checkpoint id => self.begin id fun writer state =>
    match state.capture F with
      | .ok (some capture) => some (self.setCall id
          (some (some writer.incarnation, .checkpointing (.snapping capture))))
      | _ => none
  | .serve id => do
    let (owner, call) ← self.calls id
    let (served, next) ← self.serve F owner call
    return served.setCall id (next.map fun call => (owner, call))
  | .unheard id => do
    let (owner, call) ← self.calls id
    let (served, _) ← self.serve F owner call
    return served
  | .retire id key => match self.calls id with
    | some (_, .checkpointing (.retiring retired)) =>
      if key ∈ retired then some { self with store := self.store.delete key } else none
    | _ => none
  | .resume id => do
    let (owner, call) ← self.calls id
    let writer ← self.writer
    if owner ≠ some writer.incarnation then none
    else self.resume writer id call
  | .giveUp => self.writer.map fun writer => self.setWriter { writer with waiting := none }
  | .abandon id => some (self.setCall id none)
  | .crash => some { self with writer := none }

end World

end Oqueue.Log
