import Oqueue.Coordinator.Serve
import Oqueue.Index.Following

/-!
# The loop that leads a shard

The same requests as before, now behind a lease that can be lost, over a log that
other leaders append to and whose reads can fail, with the index the loop serves
from and what it tells its followers. Everything outside the loop is an input of
its turn: who leads when, what others appended, how each read and the append end.
-/

namespace Oqueue

open Checked

/-- A read of the log: what others had appended by then, and how much of the log it saw. -/
structure LogRead where
  grown : List MetadataEntry := []
  seen : Except Error Nat

/-- How an append ends: stored and answered, stored with the answer lost, or refused. -/
inductive Appended where
  | stored
  | unanswered (error : Error)
  | refused (error : Error)

/-- The log takes an entry above its last version; a refused append stores nothing. -/
def MetadataLog.append (line : List MetadataEntry) (entry : MetadataEntry) :
    Appended → List MetadataEntry × Except Error Unit
  | .refused error => (line, .error error)
  | .stored =>
    if Takes line entry then (line ++ [entry], .ok ())
    else (line, .error (.nonMonotonicCommitVersion ((line.getLast?.map MetadataEntry.version).getD 0)
      entry.version))
  | .unanswered error => (if Takes line entry then line ++ [entry] else line, .error error)

/-- The log everyone shares, and the index this loop serves from. -/
structure Shared where
  line : List MetadataEntry
  cell : Cell

namespace Shared

/-- One read from `start`. -/
def read (self : Shared) (read : LogRead) (start : Nat) :
    Shared × Except Error (List MetadataEntry) :=
  let line := MetadataLog.grow self.line read.grown
  (⟨line, self.cell⟩, read.seen.map fun seen => MetadataLog.readFrom line seen start)

/-- The index folds a page, or says why it will not. -/
def fold (self : Shared) (page : List MetadataEntry) : Except Error Shared :=
  (self.cell.apply page).map fun cell => ⟨self.line, cell⟩

def clear (self : Shared) : Shared := ⟨self.line, self.cell.clear⟩

/-- The rounds of `rebuild`; with no read left the next one fails. -/
def rebuildPages : List LogRead → Nat → Shared → Shared
  | [], _, self => self.clear
  | next :: reads, start, self =>
    match self.read next start with
    | (self, .error _) => self.clear
    | (self, .ok page) =>
      match page.getLast? with
      | none => self
      | some tail =>
        match self.fold page with
        | .error _ => self.clear
        | .ok self =>
          match CommitVersion.advance tail.version 1 with
          | .error _ => self
          | .ok start => rebuildPages reads start self

/-- Re-derives the whole index from the log; a failure leaves it empty. -/
def rebuild (self : Shared) (reads : List LogRead) : Shared :=
  rebuildPages reads 0 self.clear

/-- Folds a page it was handed and every page after it, into an allocator and the index. -/
def foldPages : List LogRead → List MetadataEntry → Shared → Allocator → Option Nat →
    Shared × Except CoordinatorError (Allocator × Option Nat)
  | reads, page, self, allocator, last =>
    match page.getLast? with
    | none => (self, .ok (allocator, last))
    | some tail =>
      match page.foldlM (fun (allocator : Allocator) entry =>
          (allocator.replay entry).mapError (.unreplayable entry.version)) allocator with
      | .error error => (self, .error error)
      | .ok allocator =>
        match self.fold page with
        | .error source => (self, .error (.unreplayable tail.version source))
        | .ok self =>
          match CommitVersion.advance tail.version 1 with
          | .error source => (self, .error (.unreplayable tail.version source))
          | .ok start =>
            match reads with
            | [] => (self, .error (.journal .transient))
            | next :: reads =>
              match self.read next start with
              | (self, .error source) => (self, .error (.journal source))
              | (self, .ok page) => foldPages reads page self allocator (some tail.version)

/-- Folds the whole log. The index is emptied only once the first page has been read,
and again on any later failure. -/
def replay (self : Shared) (reads : List LogRead) :
    Shared × Except CoordinatorError (Allocator × Option Nat) :=
  match reads with
  | [] => (self, .error (.journal .transient))
  | next :: reads =>
    match self.read next 0 with
    | (self, .error source) => (self, .error (.journal source))
    | (self, .ok page) =>
      match foldPages reads page self.clear {} none with
      | (self, .error error) => (self.clear, .error error)
      | (self, .ok replayed) => (self, .ok replayed)

/-- The rounds of `refold`: a fresh allocator gets every page, the index what it lacks. -/
def refoldPages : List LogRead → Nat → Shared → Allocator → Option Nat →
    Shared × Option (Allocator × Option Nat)
  | [], _, self, _, _ => (self, none)
  | next :: reads, start, self, allocator, last =>
    match self.read next start with
    | (self, .error _) => (self, none)
    | (self, .ok page) =>
      match page.getLast? with
      | none => (self, some (allocator, last))
      | some tail =>
        match page.foldlM Allocator.replay allocator with
        | .error _ => (self, none)
        | .ok allocator =>
          match self.fold
              (Follower.missing MetadataEntry.version self.cell.appliedUpto page) with
          | .error _ => (self, none)
          | .ok self =>
            match CommitVersion.advance tail.version 1 with
            | .error _ => (self, none)
            | .ok start => refoldPages reads start self allocator (some tail.version)

/-- The index is never emptied here: what a new term needs is the suffix it lacks. -/
def refold (self : Shared) (reads : List LogRead) : Shared × Option (Allocator × Option Nat) :=
  refoldPages reads 0 self {} none

/-- Replays entries one by one, as far as they are accepted. -/
def replayEach (allocator : Allocator) :
    List MetadataEntry → Allocator × Except CoordinatorError Unit
  | [] => (allocator, .ok ())
  | entry :: rest =>
    match allocator.replay entry with
    | .error source => (allocator, .error (.unreplayable entry.version source))
    | .ok allocator => replayEach allocator rest

/-- The pages a standby folds past what it has; a failure keeps what is folded. -/
def catchUp : List LogRead → Shared → Allocator → Option Nat →
    (Shared × Allocator × Option Nat) × Except CoordinatorError Unit
  | reads, self, allocator, last =>
    match last.elim (.ok 0) fun last =>
        (CommitVersion.advance last 1).mapError (CoordinatorError.unreplayable last) with
    | .error error => ((self, allocator, last), .error error)
    | .ok start =>
      match reads with
      | [] => ((self, allocator, last), .error (.journal .transient))
      | next :: reads =>
        match self.read next start with
        | (self, .error source) => ((self, allocator, last), .error (.journal source))
        | (self, .ok page) =>
          match page.getLast? with
          | none => ((self, allocator, last), .ok ())
          | some tail =>
            match replayEach allocator page with
            | (allocator, .error error) => ((self, allocator, last), .error error)
            | (allocator, .ok ()) =>
              match self.fold page with
              | .error source =>
                ((self, allocator, last), .error (.unreplayable tail.version source))
              | .ok self => catchUp reads self allocator (some tail.version)

end Shared

/-- What a publish announced, and the index it announced it of. -/
structure Publication where
  announced : Option Nat
  cell : Cell

/-- The task that owns the allocator and the log, and every publish it has made. -/
structure Leader extends Shared where
  epoch : Nat := 0
  allocator : Allocator := {}
  lastCommitted : Option Nat := none
  /-- Whether there is a lease every write is checked against. -/
  fenced : Bool := false
  /-- Whether the log can be opened afresh under a new term. -/
  reopening : Bool := false
  pendingReplay : Bool := false
  replayedTerm : Option Nat := none
  published : List Publication := []
  deltas : List MetadataEntry := []

inductive LeaderRequest where
  | write (request : LoopRequest)
  | dropCache
  /-- A retry of the deferred replay, before anything is served. -/
  | retry

/-- One turn of the loop, with all it meets outside: what the replay reads, whether the lease
is held at each of the three checks and under which term, how the log reopens and what the
refold reads, what others append before this append lands and how that ends, and what a
rebuild reads. -/
structure Turn where
  request : LeaderRequest
  replays : List LogRead := []
  held : Bool := true
  term : Option Nat := none
  reopened : Bool := true
  refolds : List LogRead := []
  heldAtJournal : Bool := true
  grown : List MetadataEntry := []
  appended : Appended := .stored
  heldAfterAppend : Bool := true
  rebuilds : List LogRead := []

namespace Leader

def leads (self : Leader) (held : Bool) : Bool := !self.fenced || held

/-- Publishes what the index actually holds. -/
def publishApplied (self : Leader) : Leader :=
  { self with published := self.published ++ [⟨self.cell.appliedUpto, self.cell⟩] }

/-- Whether the index sits exactly one version below `version`. -/
def indexPrecedes (self : Leader) (version : Nat) : Bool :=
  self.cell.appliedUpto.elim (decide (version = 0)) fun applied =>
    match CommitVersion.advance applied 1 with
    | .error _ => false
    | .ok next => decide (next = version)

/-- Folds the committed entry into the index, or rebuilds the index from the log, which has
the entry too. A fold refused by an index whose position is known leaves it empty. -/
def indexing (self : Leader) (reads : List LogRead) (entry : MetadataEntry) : Shared :=
  if self.indexPrecedes entry.version then
    match self.fold [entry] with
    | .error _ => self.toShared.clear
    | .ok shared => shared
  else self.rebuild reads

/-- Indexes the committed entry, then tells everyone. -/
def publish (self : Leader) (reads : List LogRead) (entry : MetadataEntry) : Leader :=
  let told := { self with toShared := self.indexing reads entry }.publishApplied
  { told with deltas := told.deltas ++ [entry] }

/-- Appends one entry; a refusal by the log's own fence makes the next write replay afresh. -/
def journal (self : Leader) (turn : Turn) (entry : MetadataEntry) :
    Leader × Except CoordinatorError Unit :=
  match MetadataLog.append (MetadataLog.grow self.line turn.grown) entry turn.appended with
  | (line, .ok ()) => ({ self with line := line }, .ok ())
  | (line, .error error) =>
    let term := match error with
      | .preconditionFailed _ => none
      | _ => self.replayedTerm
    ({ self with line := line, replayedTerm := term }, .error (.journal error))

/-- No acknowledgement for an append that returned after the lease lapsed. -/
def stillLeadsAfterAppend (self : Leader) (turn : Turn) : Leader × Except CoordinatorError Unit :=
  if self.leads turn.heldAfterAppend then (self, .ok ())
  else ({ self with replayedTerm := none }, .error .fenced)

/-- Journals a staged position, takes it and publishes it: the one order of every write. -/
def write (self : Leader) (turn : Turn) (staged : Except Error Allocator.Staged) :
    Leader × Except CoordinatorError Allocator.Staged :=
  match staged with
  | .error source => (self, .error (.unassignable source))
  | .ok staged =>
    if !self.leads turn.heldAtJournal then (self, .error .fenced)
    else match self.journal turn staged.entry with
      | (self, .error error) => (self, .error error)
      | (self, .ok ()) => match self.stillLeadsAfterAppend turn with
        | (self, .error error) => (self, .error error)
        | (self, .ok ()) =>
          let taken : Leader := { self with
            allocator := (self.allocator.apply staged).1
            lastCommitted := some staged.entry.version }
          (taken.publish turn.rebuilds staged.entry, .ok staged)

def serve (self : Leader) (turn : Turn) (object : ObjectKey) (spans : List CommittedSpan)
    (writtenAt : Nat) : Leader × Except CoordinatorError CommitAck :=
  let admission := self.allocator.admitSpans spans
  let admitted := admission.admitted.map Prod.snd
  if admitted.isEmpty then
    (self, .ok (.of (self.lastCommitted.getD 0) self.epoch admission.answered))
  else
    let (self, outcome) := self.write turn (self.allocator.stage object admitted writtenAt)
    (self, outcome.map fun staged => .of staged.entry.version self.epoch (admission.answered ++
      (admission.admitted.map Prod.fst).zip (staged.assignments.map .assigned)))

def serveTrim (self : Leader) (turn : Turn) (topic : TopicId) (partition start : Nat) :
    Leader × Except CoordinatorError Nat :=
  let (self, outcome) := self.write turn (self.allocator.stageTrim topic partition start)
  (self, outcome.map fun staged => staged.entry.version)

def serveRetention (self : Leader) (turn : Turn) (topic : TopicId) (retentionMs : Option Int) :
    Leader × Except CoordinatorError Nat :=
  let (self, outcome) := self.write turn (self.allocator.stageRetention topic retentionMs)
  (self, outcome.map fun staged => staged.entry.version)

/-- Replays the log if a deferred open left it pending; whether the loop may now serve. -/
def tryReplay (self : Leader) (reads : List LogRead) : Leader × Bool :=
  if !self.pendingReplay then (self, true)
  else match self.replay reads with
    | (shared, .error _) => ({ self with toShared := shared }, false)
    | (shared, .ok (allocator, last)) =>
      let replayed : Leader := { self with
        toShared := shared
        allocator := allocator
        lastCommitted := last
        pendingReplay := false }
      (replayed.publishApplied, true)

/-- Replays afresh under a term this loop has not replayed under; whether it is current. -/
def currentForTerm (self : Leader) (turn : Turn) : Leader × Bool :=
  if !self.fenced || !self.reopening then (self, true)
  else if turn.term.isSome && decide (turn.term = self.replayedTerm) then (self, true)
  else if !turn.reopened then (self, false)
  else match self.refold turn.refolds with
    | (shared, none) => ({ self with toShared := shared }, false)
    | (shared, some (allocator, last)) =>
      let current : Leader := { self with
        toShared := shared
        allocator := allocator
        lastCommitted := last
        replayedTerm := turn.term }
      (current.publishApplied, true)

/-- Whether this loop may write now: replayed, leading, and current for its term. -/
def mayWrite (self : Leader) (turn : Turn) : Leader × Except CoordinatorError Unit :=
  match self.tryReplay turn.replays with
  | (self, false) => (self, .error .unavailable)
  | (self, true) =>
    if !self.leads turn.held then (self, .error .fenced)
    else match self.currentForTerm turn with
      | (self, false) => (self, .error .unavailable)
      | (self, true) => (self, .ok ())

/-- One turn of the loop. -/
def turn (self : Leader) (turn : Turn) : Leader :=
  match turn.request with
  | .dropCache => { self with toShared := self.toShared.clear }.publishApplied
  | .retry => (self.tryReplay turn.replays).1
  | .write request => match self.mayWrite turn with
    | (self, .error _) => self
    | (self, .ok ()) => match request with
      | .commit object spans writtenAt => (self.serve turn object spans writtenAt).1
      | .trim topic partition start => (self.serveTrim turn topic partition start).1
      | .retention topic retentionMs => (self.serveRetention turn topic retentionMs).1

def run (self : Leader) (turns : List Turn) : Leader := turns.foldl turn self

end Leader

/-- How a loop comes to be, over a log others have written. -/
inductive LeaderOpening where
  /-- The log is replayed first. -/
  | opened (index : IndexState) (reads : List LogRead)
  /-- The log is left for the loop to replay. -/
  | deferred (index : IndexState)
  /-- A standby folds the log as it grows, then takes over. -/
  | promoted (index : IndexState) (catchUps : List (List LogRead)) (reads : List LogRead)

namespace LeaderOpening

/-- A line already folded, or one still to be replayed; the watch starts at what is folded. -/
def assemble (shared : Shared) (fenced reopening : Bool) (line : Allocator × Option Nat)
    (pendingReplay : Bool) : Leader :=
  { shared with
    allocator := line.1
    lastCommitted := line.2
    fenced := fenced
    reopening := reopening
    pendingReplay := pendingReplay
    published := if pendingReplay then [] else [⟨line.2, shared.cell⟩] }

/-- A standby over an index it owns, and its catch-ups, the earliest last. -/
def caughtUp (line : List MetadataEntry) (index : IndexState) :
    List (List LogRead) → Shared × Allocator × Option Nat
  | [] => (⟨line, Cell.clear ⟨index, []⟩⟩, {}, none)
  | reads :: earlier =>
    let (shared, allocator, last) := caughtUp line index earlier
    (shared.catchUp reads allocator last).1

/-- The loop an opening gives, when it gives one. -/
def leader (line : List MetadataEntry) (fenced reopening : Bool) : LeaderOpening → Option Leader
  | .deferred index => some (assemble ⟨line, ⟨index, []⟩⟩ fenced reopening ({}, none) true)
  | .opened index reads =>
    match Shared.replay ⟨line, ⟨index, []⟩⟩ reads with
    | (_, .error _) => none
    | (shared, .ok replayed) => some (assemble shared fenced reopening replayed false)
  | .promoted index catchUps reads =>
    let (shared, allocator, last) := caughtUp line index catchUps
    match shared.catchUp reads allocator last with
    | (_, .error _) => none
    | ((shared, replayed), .ok ()) => some (assemble shared fenced reopening replayed false)

end LeaderOpening

end Oqueue
