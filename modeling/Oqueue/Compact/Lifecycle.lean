import Oqueue.Core.Types
import Oqueue.Library.Bytes
import Oqueue.Library.Table

/-!
# An object after the index stops naming it

A released object waits, and is queued for deletion once its count has been seen
at zero for the whole of the delay. A sweep deletes from the front of the queue;
what the store refuses goes back to its end, or out of it after too many
refusals.
-/

namespace Oqueue

def deleteBatchKeys : Nat := 1000

/-- The backlog at which a caller stops creating garbage. -/
def deletionBacklogKeys : Nat := 100000

def quarantineAfterRefusals : Nat := 5

/-- The three terms a deletion delay must exceed the sum of. -/
structure GcTerms where
  metadataStalenessMs : Int
  fetchDurationMs : Int
  clockSkewMs : Int
  deriving DecidableEq, Repr

/-- The sum a deletion delay must exceed, saturating. -/
def GcTerms.bound (self : GcTerms) : Int :=
  Bytes.saturate 64
    (Bytes.saturate 64 (self.metadataStalenessMs + self.fetchDurationMs) + self.clockSkewMs)

def GcTerms.check (self : GcTerms) (delayMs : Int) : Except Error Unit :=
  if self.bound < delayMs then .ok () else .error (.gcInequalityViolated delayMs self.bound)

def deletionDelayMs : Int := 600000

def GcTerms.configured : GcTerms := ⟨5000, 240000, 10000⟩

/-- The objects released from the index, until each is gone. -/
structure Lifecycle where
  delayMs : Int
  /-- Released, waiting for zero references and the delay; `none` before the
  first sweep that sees it at zero. -/
  logical : AList fun _ : ObjectKey => Option Nat := ∅
  /-- Due for deletion, in promotion order. -/
  queue : List ObjectKey := []
  /-- Every key in `queue` or `quarantined`. -/
  leaving : Finset ObjectKey := ∅
  refusals : Finmap fun _ : ObjectKey => Nat := ∅
  quarantined : List ObjectKey := []

/-- What one sweep did, key by key, and what it asked of the store. -/
structure SweepReport where
  deleted : List ObjectKey := []
  refused : Nat := 0
  quarantined : List ObjectKey := []
  requests : List (List ObjectKey) := []

/-- A sweep's surroundings: what the index counts, when, and how the store answers
the sweep's delete requests, in the order it makes them. -/
structure Sweep where
  references : ObjectKey → Nat
  now : Nat
  answers : Nat → Bool

namespace Lifecycle

def new (delayMs : Int) (terms : GcTerms) : Except Error Lifecycle := do
  terms.check delayMs
  return { delayMs := delayMs }

def backlog (self : Lifecycle) : Nat := self.logical.entries.length + self.queue.length

def admits (self : Lifecycle) : Bool := decide (self.backlog < deletionBacklogKeys)

def release (self : Lifecycle) (object : ObjectKey) : Lifecycle :=
  if object ∈ self.leaving then self
  else if object ∈ self.logical then self
  else { self with logical := self.logical.insert object none }

/-- One key's clock at a sweep: restarted while it is named, started when it is not. -/
def watch (references now : Nat) (zeroSince : Option Nat) : Option Nat :=
  if 0 < references then none else some (zeroSince.getD now)

/-- Whether a key has been seen at zero for the delay, this sweep included. -/
def isDue (self : Lifecycle) (sweep : Sweep) (key : ObjectKey) (zeroSince : Option Nat) : Bool :=
  sweep.references key = 0 && zeroSince.any fun since : Nat =>
    decide (self.delayMs ≤ (sweep.now : Int) - (since : Int))

/-- Moves every waiting key whose count has sat at zero for the delay onto the queue. -/
def promote (self : Lifecycle) (sweep : Sweep) : Lifecycle :=
  let due := ((self.logical.entries.filter fun e => self.isDue sweep e.1 e.2).map
    Sigma.fst).insertionSort fun a b => a.key ≤ b.key
  let watched := self.logical.entries.foldl (fun (acc : AList fun _ : ObjectKey => Option Nat) e =>
    acc.insert e.1 (watch (sweep.references e.1) sweep.now e.2)) self.logical
  { self with
    logical := due.foldl (fun acc key => acc.erase key) watched
    leaving := self.leaving ∪ due.toFinset
    queue := self.queue ++ due }

def forget (self : Lifecycle) (key : ObjectKey) : Lifecycle :=
  { self with refusals := self.refusals.erase key, leaving := self.leaving.erase key }

/-- One key the store refused: back on the queue, or quarantined. -/
def refuse (self : Lifecycle) (report : SweepReport) (key : ObjectKey) :
    Lifecycle × SweepReport :=
  let refused := (self.refusals.lookup key).getD 0 + 1
  let report := { report with refused := report.refused + 1 }
  if quarantineAfterRefusals ≤ refused then
    ({ self with
        refusals := self.refusals.erase key
        quarantined := self.quarantined ++ [key] },
      { report with quarantined := report.quarantined ++ [key] })
  else
    ({ self with
        refusals := self.refusals.insert key refused
        queue := self.queue ++ [key] }, report)

/-- Asks for each key alone, after a batch that named none of them. -/
def deleteEach (answers : Nat → Bool) :
    Nat → List ObjectKey → Lifecycle → SweepReport → Lifecycle × SweepReport
  | _, [], self, report => (self, report)
  | request, key :: rest, self, report =>
    let report := { report with requests := report.requests ++ [[key]] }
    if answers request then
      deleteEach answers (request + 1) rest (self.forget key)
        { report with deleted := report.deleted ++ [key] }
    else
      let (self, report) := self.refuse report key
      deleteEach answers (request + 1) rest self report

/-- Promotes what is due, then deletes up to a batch of it. -/
def sweep (self : Lifecycle) (sweep : Sweep) : Lifecycle × SweepReport :=
  let promoted := self.promote sweep
  let batch := promoted.queue.take deleteBatchKeys
  let drained := { promoted with queue := promoted.queue.drop deleteBatchKeys }
  if batch.isEmpty then (drained, {})
  else if sweep.answers 0 then
    (batch.foldl forget drained, { deleted := batch, requests := [batch] })
  else deleteEach sweep.answers 1 batch drained { requests := [batch] }

end Lifecycle

end Oqueue
