import Oqueue.Compact.Layout
import Oqueue.Core.BundleStream
import Oqueue.Library.Decimal

/-!
# Merging a plan's inputs into one object

The inputs are sorted, those outside the range are dropped, and the rest must tile
it; each is then read once and its regions for the partition are pushed onto the
output. An object whose regions do not add up to what its reference says is refused.
-/

namespace Oqueue

open Checked Tiling

namespace Compact

/-- An object read whole; its length is a `usize`. -/
structure WholeObject where
  bytes : List UInt8
  sized : bytes.length ≤ u64Max

structure ResealRequest where
  domain : KeyDomain
  topic : TopicId
  partition : Nat
  outputRegionIndex : Nat
  region : Region
  bytes : List UInt8

abbrev RegionReSealer := ResealRequest → Except Error SealedRegion

structure CompactionDomain where
  domain : KeyDomain
  resealer : Option RegionReSealer

namespace CompactionDomain

def defaultDomain : CompactionDomain := ⟨.defaultDomain, none⟩

end CompactionDomain

/-- Names a writer's outputs, each name once. -/
structure CompactionNamer where
  writer : String
  next : Nat
  deriving DecidableEq, Repr

def CompactionNamer.nextKey (self : CompactionNamer) : Except Error ObjectKey × CompactionNamer :=
  if self.next + 1 ≤ u64Max then
    (ObjectKey.new ("compacted/" ++ self.writer ++ "/" ++
      String.ofList (Decimal.padded 20 self.next)), { self with next := self.next + 1 })
  else (.error .bundleSequenceExhausted, self)

structure MergeStore where
  get : ObjectKey → Except Error WholeObject
  openMultipart : ObjectKey → MultipartWriter

structure MergeOutcome where
  gets : Nat
  puts : Nat
  records : Nat
  spans : List CommittedSpan
  written : Written
  object : Option ObjectKey
  deriving DecidableEq, Repr

/-- The inputs a plan's range touches. -/
def covering (plan : CompactionPlan) : List ObjectRef → Except Error (List ObjectRef)
  | [] => .ok []
  | reference :: rest => do
    let objectEnd ← reference.endOffset
    let kept ← covering plan rest
    if objectEnd ≤ plan.start ∨ plan.stop ≤ reference.baseOffset then return kept
    else return reference :: kept

/-- The inputs that tile the plan's range exactly; refused, not trimmed. -/
def tiling (ordered : List ObjectRef) (plan : CompactionPlan) : Except Error (List ObjectRef) := do
  let covering ← covering plan ordered
  let span ← contiguousSpan covering
  if span.getD (plan.start, plan.start) ≠ (plan.start, plan.stop) then .error .indexObjectMismatch
  else return covering

/-- What reading one object carries from one of its regions to the next. -/
structure Taking where
  stream : BundleStream
  nextOutputRegion : Nat
  taken : Nat

def appendRegion (writer : MultipartWriter) (plan : CompactionPlan) (security : CompactionDomain)
    (stream : BundleStream) (pushed : PushedRecords) (region : Region) (slice : List UInt8)
    (outputRegionIndex : Nat) : Except Error BundleStream :=
  if !security.domain.requiresSealing then
    stream.push writer plan.topic plan.partition pushed slice
  else match security.resealer with
    | none => .error (.regionKeyDomainMismatch true)
    | some reseal => do
      let output ← reseal ⟨security.domain, plan.topic, plan.partition, outputRegionIndex, region,
        slice⟩
      let () ← security.domain.validateResealed output
      stream.pushSealed writer plan.topic plan.partition pushed output

/-- Cuts `from..to` out of an object. -/
def cut (bytes : List UInt8) (from_ to_ : Nat) : Except Error (List UInt8) :=
  if from_ ≤ to_ ∧ to_ ≤ bytes.length then .ok ((bytes.drop from_).take (to_ - from_))
  else .error (.malformedBundleFooter from_)

def takeRegion (writer : MultipartWriter) (plan : CompactionPlan) (security : CompactionDomain)
    (bytes : List UInt8) (self : Taking) (region : Region) : Except Error Taking :=
  if region.topic ≠ plan.topic ∨ region.partition ≠ plan.partition then .ok self
  else do
    let () ← security.domain.validateRegion region
    match region.bytes with
    | .full => .error .unboundedRegion
    | .bounded offset length =>
      let slice ← cut bytes offset (saturatingAdd offset length)
      let stream ← appendRegion writer plan security self.stream ⟨region.recordCount, none⟩ region
        slice self.nextOutputRegion
      return ⟨stream, min (self.nextOutputRegion + 1) u32Max,
        min (self.taken + region.recordCount) u32Max⟩

/-- What reading a plan's inputs carries from one to the next. -/
structure Gathering where
  stream : BundleStream
  nextOutputRegion : Nat := 0
  gets : Nat := 0
  records : Nat := 0

/-- Appends an object's regions for the plan's partition, which must hold as many
records as the index said. -/
def takeRegions (writer : MultipartWriter) (plan : CompactionPlan) (security : CompactionDomain)
    (bytes : List UInt8) (reference : ObjectRef) (self : Gathering) : Except Error Taking := do
  let regions ← parseFooter bytes bytes.length
  let taking ← regions.foldlM (takeRegion writer plan security bytes)
    ⟨self.stream, self.nextOutputRegion, 0⟩
  if taking.taken ≠ reference.recordCount then .error .indexObjectMismatch
  else return taking

def gatherOne (store : MergeStore) (writer : MultipartWriter) (plan : CompactionPlan)
    (security : CompactionDomain) (self : Gathering) (reference : ObjectRef) :
    Except Error Gathering := do
  let whole ← store.get reference.object
  let taking ← takeRegions writer plan security whole.bytes reference self
  return ⟨taking.stream, taking.nextOutputRegion, self.gets + 1, self.records + taking.taken⟩

/-- Reads one plan's inputs into an output being written. -/
def gather (store : MergeStore) (writer : MultipartWriter) (plan : CompactionPlan)
    (inputs : List ObjectRef) (security : CompactionDomain) (stream : BundleStream) :
    Except Error Gathering := do
  let covering ← tiling (sortByBase inputs) plan
  covering.foldlM (gatherOne store writer plan security) { stream := stream }

/-- The bytes of the object a finishing stream has its writer complete, if it gets there. -/
def completed (writer : MultipartWriter) (stream : BundleStream) : Option (List UInt8) := do
  let (footer, _) ← stream.regions.intoFooter.toOption
  let () ← (writer.writePart stream.parts (stream.buffer ++ footer)).toOption
  return (stream.parts ++ [stream.buffer ++ footer]).flatten

/-- What a merge answers, the object it had its writer complete, and its namer after. -/
structure Merged where
  result : Except Error MergeOutcome
  object : Option (ObjectKey × List UInt8)
  namer : CompactionNamer

def mergeInDomain (store : MergeStore) (plan : CompactionPlan) (inputs : List ObjectRef)
    (namer : CompactionNamer) (security : CompactionDomain) : Merged :=
  match namer.nextKey with
  | (.error refusal, namer) => ⟨.error refusal, none, namer⟩
  | (.ok output, namer) =>
    let writer := store.openMultipart output
    match BundleStream.start writer >>= gather store writer plan inputs security with
    | .error refusal => ⟨.error refusal, none, namer⟩
    | .ok gathered =>
      { result := do
          let (spans, written, _) ← gathered.stream.finish writer
          return ⟨gathered.gets, 1, gathered.records, spans, written, some output⟩
        object := (completed writer gathered.stream).map fun bytes => (output, bytes)
        namer := namer }

def merge (store : MergeStore) (plan : CompactionPlan) (inputs : List ObjectRef)
    (namer : CompactionNamer) : Merged :=
  mergeInDomain store plan inputs namer .defaultDomain

/-- A region of an input for the plan's partition, and its bytes. -/
structure Source where
  region : Region
  bytes : List UInt8
  deriving DecidableEq, Repr

def recordsIn (sources : List Source) : Nat := (sources.map fun s => s.region.recordCount).sum

/-- The regions of a reference's object for the plan's partition, in the object's order. -/
def sourcesOf (get : ObjectKey → Except Error WholeObject) (plan : CompactionPlan)
    (reference : ObjectRef) : Except Error (List Source) := do
  let whole ← get reference.object
  let regions ← parseFooter whole.bytes whole.bytes.length
  return (regions.filter fun region => decide (region.key = plan.key)).map fun region =>
    ⟨region, region.slice whole.bytes⟩

/-- The regions of a reference's object, none if it cannot be read. -/
def held (get : ObjectKey → Except Error WholeObject) (plan : CompactionPlan)
    (reference : ObjectRef) : List Source := (sourcesOf get plan reference).toOption.getD []

def pushOf (plan : CompactionPlan) (security : CompactionDomain) (index : Nat) (source : Source) :
    Except Error Push := do
  let pushed : PushedRecords := ⟨source.region.recordCount, none⟩
  let () ← security.domain.validateRegion source.region
  if !security.domain.requiresSealing then
    return .plain plan.topic plan.partition pushed source.bytes
  else match security.resealer with
    | none => .error (.regionKeyDomainMismatch true)
    | some reseal => do
      let output ← reseal ⟨security.domain, plan.topic, plan.partition, index, source.region,
        source.bytes⟩
      let () ← security.domain.validateResealed output
      return .ciphered plan.topic plan.partition pushed output

def pushesOf (plan : CompactionPlan) (security : CompactionDomain) :
    Nat → List Source → Except Error (List Push)
  | _, [] => .ok []
  | index, source :: rest => do
    let push ← pushOf plan security index source
    let pushes ← pushesOf plan security (min (index + 1) u32Max) rest
    return push :: pushes

end Compact

end Oqueue
