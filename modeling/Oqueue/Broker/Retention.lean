import Oqueue.Compact.Lifecycle
import Oqueue.Compact.Retention
import Oqueue.Coordinator.Leadership

/-!
# The task that makes retention happen

It follows the coordinator's deltas into an index of its own, and every round trims
what has expired and sweeps what nothing names. Whatever answers it is an input: the
log's reads, the catalog's, the coordinator's answer to a trim, and the store's.
-/

namespace Oqueue

open Checked

def configReconciliationBatch : Nat := 64

abbrev TopicCatalog := Nat → TopicId → Except Error (Option Int)

/-- What retention does to the shard: journals a trim, or sweeps. -/
inductive RetentionAction where
  | trim (topic : TopicId) (partition start : Nat)
  | sweep
  deriving DecidableEq, Repr

/-- An action, and the index it was decided on. -/
structure Acted where
  action : RetentionAction
  cell : Cell

/-- Retention for one metadata shard, the log it follows, and what it has done so far. -/
structure Retention extends Shared where
  heap : ExpiryHeap
  lifecycle : Lifecycle
  reconciliationCursor : Option TopicId := none
  /-- Whether the index holds the log. -/
  synced : Bool := false
  catalogReads : Nat := 0
  stopped : Bool := false
  acted : List Acted := []

/-- The coordinator's answer to a trim, and what the log has grown by then. -/
structure TrimAnswer where
  grown : List MetadataEntry := []
  outcome : Except CoordinatorError Nat

structure Round where
  rebuilds : List LogRead := []
  now : Nat
  trims : Nat → TrimAnswer
  deletes : Nat → Bool

/-- What reaches the task: a pushed entry, word that it fell behind, a tick, the end of the
stream; and, between them, others appending to the log. -/
inductive RetentionEvent where
  | delta (entry : MetadataEntry) (reads : List LogRead)
  | lagged (reads : List LogRead)
  | tick (round : Round)
  | closed
  | appended (entries : List MetadataEntry)

namespace Retention

/-- A retention task over a shard's log, following it into `index`. -/
def new (line : List MetadataEntry) (index : IndexState) : Except Error Retention := do
  let lifecycle ← Lifecycle.new deletionDelayMs .configured
  return {
    line := line
    cell := Cell.clear ⟨index, []⟩
    heap := .new defaultRetentionMs
    lifecycle := lifecycle }

section
variable (catalog : TopicCatalog)

/-- Reads a topic's setting, and arms by it what the heap holds of the topic. -/
def configure (self : Retention) (topic : TopicId) : Retention :=
  { self with
    catalogReads := self.catalogReads + 1
    heap := match catalog self.catalogReads topic with
      | .error _ => self.heap
      | .ok retentionMs => self.heap.setTopicRetention self.cell.index topic retentionMs }

def armSpan (self : Retention) (span : CommittedSpan) : Retention :=
  let configured := self.configure catalog span.topic
  { configured with heap := configured.heap.track configured.cell.index span.key }

def arm (self : Retention) (entry : MetadataEntry) : Retention :=
  match entry.record with
  | .batchCommitted _ spans _ => spans.foldl (armSpan catalog) self
  | .topicRetentionChanged topic _ => self.configure catalog topic
  | _ => self

/-- Gives up on a rebuild: nothing is left in the index. -/
def emptied (self : Retention) (shared : Shared) : Retention :=
  { self with toShared := shared.clear }

/-- The rounds of `rebuild`; with no read left the next one fails. -/
def rebuildPages : List LogRead → Nat → Retention → Retention
  | [], _, self => self.emptied self.toShared
  | next :: reads, start, self =>
    match self.toShared.read next start with
    | (shared, .error _) => self.emptied shared
    | (shared, .ok page) =>
      match page.getLast? with
      | none => { self with toShared := shared, synced := true }
      | some last =>
        match CommitVersion.advance last.version 1 with
        | .error _ => self.emptied shared
        | .ok start =>
          match shared.fold page with
          | .error _ => self.emptied shared
          | .ok shared =>
            rebuildPages reads start (page.foldl (arm catalog) { self with toShared := shared })

/-- Where a rebuild starts from: nothing folded, nothing armed. -/
def forgotten (self : Retention) : Retention :=
  { self with
    toShared := self.toShared.clear
    synced := false
    heap := .new defaultRetentionMs }

/-- Re-derives the follower and the heap from the log; a failed one leaves it unsynced. -/
def rebuild (self : Retention) (reads : List LogRead) : Retention :=
  rebuildPages catalog reads 0 self.forgotten

/-- Folds one pushed entry, unless the index has it already. -/
def fold (self : Retention) (entry : MetadataEntry) (reads : List LogRead) : Retention :=
  if self.cell.appliedUpto.any fun applied => decide (entry.version ≤ applied) then self
  else match self.toShared.fold [entry] with
    | .error _ => self.rebuild catalog reads
    | .ok shared => arm catalog { self with toShared := shared } entry

/-- One page of `below`: the objects it adds, and where the walk goes on, if it does. -/
def belowPage (start : Nat) : List IndexedBatch → Nat → List ObjectKey × Option Nat
  | [], cursor => ([], some cursor)
  | batch :: rest, _ =>
    match batch.reference.endOffset with
    | .error _ => ([], none)
    | .ok stop =>
      if start < stop then ([], none)
      else
        let (dropped, next) := belowPage start rest stop
        (batch.reference.object :: dropped, next)

/-- The walk of `below`; a page moves it on by at least one offset. -/
def belowFrom (index : IndexState) (key : PartitionKey) (start : Nat) :
    Nat → Nat → List ObjectKey
  | 0, _ => []
  | pages + 1, cursor =>
    if start ≤ cursor then []
    else match index.findBatches key cursor u64Max with
      | .error _ => []
      | .ok [] => []
      | .ok page =>
        match belowPage start page cursor with
        | (dropped, none) => dropped
        | (dropped, some cursor) => dropped ++ belowFrom index key start pages cursor

/-- The objects behind every entry a trim to `start` drops. -/
def below (self : Retention) (key : PartitionKey) (start : Nat) : List ObjectKey :=
  let logStart := self.cell.index.logStart key
  belowFrom self.cell.index key start (start - logStart) logStart

def did (self : Retention) (action : RetentionAction) : Retention :=
  { self with acted := self.acted ++ [⟨action, self.cell⟩] }

/-- Journals one trim; false once the coordinator has stopped. -/
def trim (self : Retention) (answer : TrimAnswer) (topic : TopicId) (partition start : Nat) :
    Retention × Bool :=
  let dropped := self.below (topic, partition) start
  let asked := self.did (.trim topic partition start)
  let asked := { asked with line := MetadataLog.grow asked.line answer.grown }
  match answer.outcome with
  | .ok _ => ({ asked with lifecycle := dropped.foldl Lifecycle.release asked.lifecycle }, true)
  | .error .unavailable => (asked, false)
  | .error _ => ({ asked with heap := asked.heap.track asked.cell.index (topic, partition) }, true)

/-- Journals each trim that is due, until the coordinator stops. -/
def trimEach (answers : Nat → TrimAnswer) : Nat → List MetadataRecord → Retention → Retention × Bool
  | _, [], self => (self, true)
  | made, .trimmed topic partition start :: rest, self =>
    match self.trim (answers made) topic partition start with
    | (self, false) => (self, false)
    | (self, true) => trimEach answers (made + 1) rest self
  | made, _ :: rest, self => trimEach answers made rest self

def reconcileConfigurations (self : Retention) : Retention :=
  let topics := self.heap.topicsAfter self.reconciliationCursor configReconciliationBatch
  if topics.isEmpty then { self with reconciliationCursor := none }
  else { topics.foldl (configure catalog) self with reconciliationCursor := topics.getLast? }

def trimExpired (self : Retention) (round : Round) : Retention × Bool :=
  if self.lifecycle.admits then
    let (heap, trims) := self.heap.dueAt self.cell.index round.now
    trimEach round.trims 0 trims { self with heap := heap }
  else (self, true)

def sweep (self : Retention) (round : Round) : Retention :=
  let swept := self.did .sweep
  { swept with lifecycle :=
      (self.lifecycle.sweep ⟨self.cell.index.references.get, round.now, round.deletes⟩).1 }

/-- One round: journal what has expired, then sweep; unsynced it does neither. -/
def round (self : Retention) (round : Round) : Retention :=
  let self := if self.synced then self else self.rebuild catalog round.rebuilds
  if !self.synced then self
  else match (self.reconcileConfigurations catalog).trimExpired round with
    | (self, false) => { self with stopped := true }
    | (self, true) => self.sweep round

/-- One event of the task's loop. -/
def step (self : Retention) (event : RetentionEvent) : Retention :=
  if self.stopped then self
  else match event with
    | .delta entry reads => self.fold catalog entry reads
    | .lagged reads => self.rebuild catalog reads
    | .tick round => self.round catalog round
    | .closed => { self with stopped := true }
    | .appended entries => { self with line := MetadataLog.grow self.line entries }

/-- The task's whole life: a rebuild, then whatever reaches it. -/
def run (self : Retention) (reads : List LogRead) (events : List RetentionEvent) : Retention :=
  events.foldl (step catalog) (self.rebuild catalog reads)

end

end Retention

end Oqueue
