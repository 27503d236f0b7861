import Oqueue.Index.Reachable
import Oqueue.Index.Page
import Oqueue.Library.Grouping
import Oqueue.Library.Paged

/-!
# Read amplification and the plan it selects

A survey walks a range of one partition a page at a time and folds what it sees
into objects. What it measures is the first run of objects that lie wholly inside
the range, each beginning where the one before it ends; a plan is that run, cut
where the tail begins.
-/

namespace Oqueue

def IndexedBatch.bytes : IndexedBatch → Option ByteRange
  | .inline entry => some entry.bytes
  | .footer _ => none

namespace Compact

open Checked Tiling

def compactedObjectRecords : Nat := 524288
def compactionReadAmpThreshold : Nat := 12
def compactionPlanRecordsBudget : Nat := 524288

/-- Everything one object holds for the partition, across all of its spans. `whole`
is only ever set false. -/
structure Extent where
  object : ObjectKey
  firstBase : Nat
  lastEnd : Nat
  records : Nat
  tail : Bool
  whole : Bool
  deriving DecidableEq, Repr

def Extent.absorb (self span : Extent) : Extent where
  object := self.object
  firstBase := min self.firstBase span.firstBase
  lastEnd := max self.lastEnd span.lastEnd
  records := self.records + span.records
  tail := self.tail || span.tail
  whole := self.whole && span.whole

theorem Extent.object_absorb (self span : Extent) : (self.absorb span).object = self.object := rfl

/-- What one walk of a range accumulates: the objects in the order they were first
seen, and those it knows are not whole without having seen why. -/
structure Walk where
  start : Nat
  stop : Nat
  seen : List Extent := []
  barred : List ObjectKey := []

/-- What a survey reports. -/
structure ReadAmp where
  objectsTouched : Nat
  objectsNeeded : Nat
  records : Nat
  tailObjects : Nat
  firstTailBase : Option Nat
  historyObjects : Nat
  historyRecords : Nat
  covered : Option (Nat × Nat)
  deriving DecidableEq, Repr

/-- How many compacted objects so many records would occupy. -/
def objectsNeeded (records : Nat) : Nat :=
  records / compactedObjectRecords + if records % compactedObjectRecords ≠ 0 then 1 else 0

/-- What `finish` has counted of the run so far. -/
structure Run where
  covered : Option (Nat × Nat) := none
  objectsTouched : Nat := 0
  records : Nat := 0
  tailObjects : Nat := 0
  firstTailBase : Option Nat := none
  historyObjects : Nat := 0
  historyRecords : Nat := 0
  deriving DecidableEq, Repr

/-- Adds an object to the run. One met before any of the tail is still history. -/
def Run.take (self : Run) (extent : Extent) : Run :=
  let run := { self with
    covered := some ((self.covered.elim extent.firstBase Prod.fst), extent.lastEnd)
    objectsTouched := self.objectsTouched + 1
    records := self.records + extent.records }
  if extent.tail then { run with
    tailObjects := run.tailObjects + 1
    firstTailBase := some (run.firstTailBase.elim extent.firstBase
      fun base => min base extent.firstBase) }
  else if run.firstTailBase = none then { run with
    historyObjects := run.historyObjects + 1
    historyRecords := run.historyRecords + extent.records }
  else run

namespace Walk

def bar (self : Walk) (key : ObjectKey) : Walk := { self with barred := self.barred ++ [key] }

/-- What one batch says about its object. A batch past the range is folded too: it
is the far edge of an object that does not lie wholly inside. -/
def extentOf (self : Walk) (batch : IndexedBatch) (objectEnd : Nat) : Extent where
  object := batch.reference.object
  firstBase := batch.reference.baseOffset
  lastEnd := objectEnd
  records := objectEnd - batch.reference.baseOffset
  tail := batch.bytes.isSome
  whole := !decide (self.stop ≤ batch.reference.baseOffset) &&
    decide (self.start ≤ batch.reference.baseOffset) && decide (objectEnd ≤ self.stop)

def fold (self : Walk) (extent : Extent) : Walk :=
  { self with seen := Grouping.add Extent.object Extent.absorb self.seen extent }

/-- Folds one batch into its object; where the batch ends, unless it is past the range. -/
def visit (self : Walk) (batch : IndexedBatch) : Except Error (Walk × Option Nat) := do
  let objectEnd ← batch.reference.endOffset
  return (self.fold (self.extentOf batch objectEnd),
    if self.stop ≤ batch.reference.baseOffset then none else some objectEnd)

/-- The objects wholly inside the range that tile one run of it. -/
def runFrom (self : Walk) : List Extent → Run → Run
  | [], run => run
  | extent :: rest, run =>
    if !extent.whole || self.barred.contains extent.object then self.runFrom rest run
    else match run.covered with
      | none => self.runFrom rest (run.take extent)
      | some (_, high) =>
        if extent.firstBase ≠ high then run else self.runFrom rest (run.take extent)

def finish (self : Walk) : ReadAmp :=
  let run := self.runFrom self.seen {}
  { objectsTouched := run.objectsTouched
    objectsNeeded := Compact.objectsNeeded run.records
    records := run.records
    tailObjects := run.tailObjects
    firstTailBase := run.firstTailBase
    historyObjects := run.historyObjects
    historyRecords := run.historyRecords
    covered := run.covered }

end Walk

namespace ReadAmp

/-- The same measurement over the run's history portion alone. -/
def beforeTail (self : ReadAmp) : ReadAmp where
  objectsTouched := self.historyObjects
  objectsNeeded := Compact.objectsNeeded self.historyRecords
  records := self.historyRecords
  tailObjects := 0
  firstTailBase := none
  historyObjects := self.historyObjects
  historyRecords := self.historyRecords
  covered := match self.covered, self.firstTailBase with
    | some (low, _), some boundary => if low < boundary then some (low, boundary) else none
    | _, _ => none

/-- What a plan may rewrite: all of what was measured, or what lies before the tail. -/
def plannable (self : ReadAmp) : ReadAmp :=
  if self.firstTailBase = none then self else self.beforeTail

/-- Whether the ratio of objects touched to objects needed is over a threshold. A
range that needs none has ratio zero. -/
def exceeds (self : ReadAmp) (threshold : Nat) : Bool :=
  decide (self.objectsNeeded ≠ 0) && decide (threshold * self.objectsNeeded < self.objectsTouched)

end ReadAmp

structure CostEstimate where
  gets : Nat
  puts : Nat
  recordsRewritten : Nat
  deriving DecidableEq, Repr

namespace CostEstimate

def of (amplification : ReadAmp) : CostEstimate :=
  ⟨amplification.objectsTouched, amplification.objectsNeeded, amplification.records⟩

def withinBudget (self : CostEstimate) : Bool :=
  decide (self.recordsRewritten ≤ compactionPlanRecordsBudget)

end CostEstimate

/-- One range selected for rewriting, and the measurement that selected it. -/
structure CompactionPlan where
  topic : TopicId
  partition : Nat
  start : Nat
  stop : Nat
  amplification : ReadAmp
  deriving DecidableEq, Repr

namespace CompactionPlan

abbrev key (self : CompactionPlan) : PartitionKey := (self.topic, self.partition)

def cost (self : CompactionPlan) : CostEstimate := .of self.amplification

end CompactionPlan

inductive Planning where
  | notWorthIt
  | deferred (cost : CostEstimate)
  | planned (plan : CompactionPlan)
  deriving DecidableEq, Repr

/-- What a batch below a range's start bars. -/
def barBelow (walk : Walk) (batch : IndexedBatch) : Walk :=
  if batch.reference.baseOffset < walk.start then walk.bar batch.reference.object else walk

/-- The lookup below a start, which names the object that ends there; at the log
start it is refused, and a read from the start names the straddlers instead. -/
def lookBelow (index : IndexState) (key : PartitionKey) (start : Nat) :
    Except Error (List IndexedBatch) :=
  match index.findBatches key (start - 1) u64Max with
  | .error (.belowLogStart _ _) => index.findBatches key start u64Max
  | other => other

def probe (index : IndexState) (key : PartitionKey) (walk : Walk) : Except Error Walk := do
  if walk.start < walk.stop ∧ 0 < walk.start then
    let batches ← lookBelow index key walk.start
    return batches.foldl barBelow walk
  else return walk

def survey (index : IndexState) (key : PartitionKey) (start stop : Nat) : Except Error ReadAmp := do
  let walk ← probe index key { start := start, stop := stop }
  let walk ← Paged.walk (fun cursor => index.findBatches key cursor u64Max) Walk.visit stop
    (stop - start) start walk
  return walk.finish

/-- The survey from the log start, if a trim has moved past `start`. -/
def readAmp (index : IndexState) (key : PartitionKey) (start stop : Nat) : Except Error ReadAmp :=
  match survey index key start stop with
  | .error (.belowLogStart requested logStart) =>
    if start < logStart then survey index key logStart stop
    else .error (.belowLogStart requested logStart)
  | other => other

/-- Plans a rewrite of a range, or declines to. -/
def plan (index : IndexState) (topic : TopicId) (partition start stop : Nat) :
    Except Error Planning := do
  let surveyed ← readAmp index (topic, partition) start stop
  let amplification := surveyed.plannable
  match amplification.covered with
  | none => return .notWorthIt
  | some (start, stop) =>
    if !amplification.exceeds compactionReadAmpThreshold then return .notWorthIt
    else
      let cost := CostEstimate.of amplification
      if !cost.withinBudget then return .deferred cost
      else return .planned ⟨topic, partition, start, stop, amplification⟩

end Compact

end Oqueue
