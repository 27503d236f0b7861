import Oqueue.Index.Partition
import Oqueue.Library.Table

/-!
# The fold

`apply` reads a page of the log into a scratch, applies the effects it holds to
copies of the partitions they touch, and only then lands. Commits are staged as
a running end and the entries they add; an effect remembers how many of its own
partition's staged entries come before it.
-/

namespace Oqueue

open Checked

structure IndexQuota where
  ceiling : Nat
  alarmAt : Nat
  alarm_below : alarmAt < ceiling
  deriving DecidableEq, Repr

namespace IndexQuota

def new (ceiling alarmAt : Nat) : Except Error IndexQuota :=
  if h : ceiling = 0 ∨ ceiling ≤ alarmAt then .error (.invalidIndexQuota ceiling alarmAt)
  else .ok ⟨ceiling, alarmAt, by omega⟩

def wouldCross (self : IndexQuota) (entries : Nat) : Bool := decide (self.ceiling < entries)

end IndexQuota

inductive RefChange where
  | added (key : ObjectKey)
  | dropped (key : ObjectKey)
  deriving DecidableEq, Repr

namespace RefChange

def isAdded : RefChange → Bool
  | added _ => true
  | dropped _ => false

end RefChange

abbrev References := Finmap fun _ : ObjectKey => Nat

namespace References

def get (self : References) (object : ObjectKey) : Nat := (self.lookup object).getD 0

def change (self : References) : RefChange → References
  | .added key => self.insert key (self.get key + 1)
  | .dropped key =>
    match self.lookup key with
    | none => self
    | some count => if count - 1 = 0 then self.erase key else self.insert key (count - 1)

/-- Every addition first, then every drop. -/
def apply (self : References) (changes : List RefChange) : References :=
  (changes.filter RefChange.isAdded ++ changes.filter fun c => !c.isAdded).foldl change self

end References

/-- What one record does to one partition, beyond appending to its tail. -/
inductive Effect where
  | published (manifest : ObjectKey) (upto : Nat)
  | swapped (retiring installing : List ObjectRef)
  | trimmed (start : Nat)
  deriving DecidableEq, Repr

/-- One effect, its partition, and how much of its own batch it may see. -/
structure Staged where
  key : PartitionKey
  effect : Effect
  precedes : Nat
  deriving DecidableEq, Repr

/-- A partition's running end, the entries a batch adds to it, and when. -/
structure StagedSpan where
  stop : Nat
  entries : List TailEntry
  when : TimeSpan
  deriving DecidableEq, Repr

abbrev StagedSpans := AList fun _ : PartitionKey => StagedSpan

abbrev Projected := AList fun _ : PartitionKey => PartitionIndex

/-- What one `apply` has read out of its batch and not yet applied. -/
structure Batch where
  effects : List Staged := []
  staged : StagedSpans := ∅

def precedes (staged : StagedSpans) (key : PartitionKey) : Nat :=
  (staged.lookup key).elim 0 fun span => span.entries.length

def Batch.stageEffect (self : Batch) (key : PartitionKey) (effect : Effect) : Batch :=
  { self with effects := self.effects ++ [⟨key, effect, precedes self.staged key⟩] }

@[ext] structure IndexState where
  appliedUpto : Option Nat := none
  partitions : Finmap fun _ : PartitionKey => PartitionIndex := ∅
  tiers : Tiers := {}
  quota : Option IndexQuota := none
  references : References := ∅

/-- Why a swap's two runs did not cover each other, in a sentence. -/
def whyItDoesNotCover (retiring installing : List ObjectRef) : String :=
  match retiring with
  | [] => "it retires nothing and installs " ++ toString installing.length ++
      ", and neither side of a swap may be empty"
  | first :: _ =>
    if installing.isEmpty then
      "it retires " ++ toString retiring.length ++ " reference(s) starting at " ++ first.object.key ++
        " and installs nothing, and neither side of a swap may be empty"
    else match (retiring ++ installing).find? fun reference => reference.recordCount == 0 with
      | some empty => "it names " ++ empty.object.key ++
          ", which covers no offsets — such a reference can never be retired, and sorts ahead " ++
          "of the real object at its base offset"
      | none => "the " ++ toString installing.length ++
          " reference(s) it installs do not cover exactly the " ++ toString retiring.length ++
          " it retires, starting at " ++ first.object.key

/-- Refuses the first retired reference that history does not hold. -/
def checkHeld (slot : PartitionIndex) (key : PartitionKey) : List ObjectRef → Except Error Unit
  | [] => .ok ()
  | reference :: rest =>
    if slot.holdsInHistory reference then checkHeld slot key rest
    else .error (.swapRefused key.1.name key.2 ("it retires " ++ reference.object.key ++
      ", which this partition's history does not hold"))

/-- `covers` keeps its own vocabulary; the fold says which record asked. -/
def translateCover (key : PartitionKey) (retiring installing : List ObjectRef) : Error → Error
  | .indexObjectMismatch =>
    .swapRefused key.1.name key.2 (whyItDoesNotCover retiring installing)
  | other => other

def applySwap (slot : PartitionIndex) (key : PartitionKey) (retiring installing : List ObjectRef) :
    Except Error PartitionIndex := do
  (covers retiring installing).mapError (translateCover key retiring installing)
  checkHeld slot key retiring
  return slot.replaceHistory retiring installing

def applyEffect (slot : PartitionIndex) (key : PartitionKey) :
    Effect → Except Error (PartitionIndex × List RefChange)
  | .published manifest upto =>
    match slot.boundary upto with
    | some expected => .error (.manifestDoesNotMeetHistory key.1.name key.2 upto expected)
    | none => .ok ((slot.absorb manifest upto).2, [])
  | .swapped retiring installing => do
    let swapped ← applySwap slot key retiring installing
    return (swapped, retiring.map (fun r => .dropped r.object) ++
      installing.map (fun r => .added r.object))
  | .trimmed start =>
    if slot.endOffset < start then
      .error (.trimPastEnd key.1.name key.2 start slot.endOffset)
    else
      let (dropped, trimmed) := slot.trim start
      .ok (trimmed, dropped.map .dropped)

/-- Pushes staged entries one by one, advancing the end as it goes. -/
def pushEntries (slot : PartitionIndex) : List TailEntry → Except Error PartitionIndex
  | [] => .ok slot
  | entry :: rest => do
    let stop ← entry.reference.endOffset
    pushEntries { slot.push entry with endOffset := stop } rest

/-- Pushes this partition's staged entries up to `upto`, from the `already` taken. -/
def catchUp (slot : PartitionIndex) (staged : Option StagedSpan) (already upto : Nat) :
    Except Error (PartitionIndex × Nat) :=
  match staged with
  | none => .ok (slot, already)
  | some span => do
    let slot ← pushEntries slot ((span.entries.take upto).drop already)
    return (slot, max already upto)

/-- What the effect loop of `project` carries. -/
structure Projection where
  projected : Projected := ∅
  changes : List RefChange := []
  taken : AList fun _ : PartitionKey => Nat := ∅

namespace IndexState

def partition (self : IndexState) (key : PartitionKey) : Option PartitionIndex :=
  self.partitions.lookup key

def endOffset (self : IndexState) (key : PartitionKey) : Nat :=
  (self.partition key).elim 0 PartitionIndex.endOffset

def manifest (self : IndexState) (key : PartitionKey) : Option (ObjectKey × Nat) :=
  (self.partition key).bind PartitionIndex.manifest

def logStart (self : IndexState) (key : PartitionKey) : Nat :=
  (self.partition key).elim 0 PartitionIndex.logStart

def timeSpan (self : IndexState) (key : PartitionKey) : Option TimeSpan :=
  (self.partition key).bind PartitionIndex.when

/-- Stages one span's contribution: the staged end first, then the committed one. -/
def stageSpan (self : IndexState) (staged : StagedSpans) (object : ObjectKey) (when : TimeSpan)
    (span : CommittedSpan) : Except Error StagedSpans := do
  if span.recordCount = 0 then
    throw (.emptySpanInLog span.topic.name span.partition object.key)
  let base := (staged.lookup span.key).elim (self.endOffset span.key) StagedSpan.stop
  let next ← Offset.add base span.recordCount
  let slot := (staged.lookup span.key).getD ⟨base, [], when⟩
  let entry : TailEntry := ⟨⟨object, base, span.recordCount⟩, span.bytes⟩
  return staged.insert span.key ⟨next, slot.entries ++ [entry], slot.when.widened when⟩

def readRecord (self : IndexState) (batch : Batch) : MetadataRecord → Except Error Batch
  | .batchCommitted object spans writtenAt => do
    let staged ← spans.foldlM (fun staged span =>
      self.stageSpan staged object (TimeSpan.at_ writtenAt) span) batch.staged
    return { batch with staged := staged }
  | .manifestPublished topic partition manifest upto =>
    .ok (batch.stageEffect (topic, partition) (.published manifest upto))
  | .rangeCompacted topic partition retiring installing =>
    .ok (batch.stageEffect (topic, partition) (.swapped retiring installing))
  | .trimmed topic partition start =>
    .ok (batch.stageEffect (topic, partition) (.trimmed start))
  | .epochChanged _ => .ok batch
  | .topicRetentionChanged _ _ => .ok batch

/-- One entry of the reading loop: the version must rise, then the record is read. -/
def readEntry (self : IndexState) (scratch : Option Nat × Batch) (entry : MetadataEntry) :
    Except Error (Option Nat × Batch) := do
  match scratch.1 with
  | some prev =>
    if entry.version ≤ prev then
      throw (.nonMonotonicCommitVersion prev entry.version)
  | none => pure ()
  let batch ← self.readRecord scratch.2 entry.record
  return (some entry.version, batch)

def projectEffect (self : IndexState) (staged : StagedSpans) (proj : Projection)
    (effect : Staged) : Except Error Projection := do
  let slot := (proj.projected.lookup effect.key).getD ((self.partition effect.key).getD {})
  let already := (proj.taken.lookup effect.key).getD 0
  let (slot, already) ← catchUp slot (staged.lookup effect.key) already effect.precedes
  let (slot, changes) ← applyEffect slot effect.key effect.effect
  return {
    projected := proj.projected.insert effect.key slot
    changes := proj.changes ++ changes
    taken := proj.taken.insert effect.key already }

/-- The commits after the last effect, and the end and time they leave. -/
def settleSlot (staged : StagedSpans) (taken : AList fun _ : PartitionKey => Nat)
    (e : Sigma fun _ : PartitionKey => PartitionIndex) : Except Error PartitionIndex := do
  let span := staged.lookup e.1
  let (slot, _) ← catchUp e.2 span ((taken.lookup e.1).getD 0) (precedes staged e.1)
  return span.elim slot fun span => { slot with endOffset := span.stop }.observe span.when

/-- Applies the batch's effects to copies, in the order the log holds them. -/
def project (self : IndexState) (effects : List Staged) (staged : StagedSpans) :
    Except Error (Projected × List RefChange) := do
  let proj ← effects.foldlM (self.projectEffect staged) {}
  let projected ← proj.projected.entries.foldlM (fun (acc : Projected) e =>
    (settleSlot staged proj.taken e).map fun slot => acc.insert e.1 slot) proj.projected
  return (projected, proj.changes)

/-- What one partition contributes to a batch's growth. -/
structure Contribution where
  key : PartitionKey
  delta : Int
  deriving DecidableEq, Repr

/-- Whether `left` ranks strictly above `right`: a larger delta, then the smaller key. -/
def Contribution.outranks (left right : Contribution) : Bool :=
  decide (right.delta < left.delta) || (decide (left.delta = right.delta) &&
    (decide (left.key.1.name < right.key.1.name) ||
      (decide (left.key.1.name = right.key.1.name) && decide (left.key.2 < right.key.2))))

def contributions (self : IndexState) (staged : StagedSpans) (projected : Projected) :
    List Contribution :=
  (staged.entries.filter fun e => decide (e.1 ∉ projected)).map
      (fun e => ⟨e.1, e.2.entries.length⟩) ++
    projected.entries.map fun e => ⟨e.1, (e.2.tiers.total : Int) -
      ((self.partition e.1).elim 0 fun held => held.tiers.total : Nat)⟩

def checkQuota (self : IndexState) (staged : StagedSpans) (projected : Projected) :
    Except Error Unit :=
  match self.quota with
  | none => .ok ()
  | some quota =>
    let contributions := self.contributions staged projected
    let net := (contributions.map Contribution.delta).sum
    let wouldBe := ((self.tiers.total : Int) + net).toNat
    if !quota.wouldCross wouldBe then .ok ()
    else
      let worst := contributions.foldl (fun (best : Option Contribution) c =>
        some (best.elim c fun held => if held.outranks c then held else c)) none
      .error (.indexQuotaExceeded (worst.elim "" fun c => c.key.1.name)
        (worst.elim 0 fun c => c.key.2) wouldBe quota.ceiling)

/-- Every staged entry names its object once, whichever path installs it. -/
def stagedChanges (staged : StagedSpans) : List RefChange :=
  staged.entries.flatMap fun e => e.2.entries.map fun entry => .added entry.reference.object

/-- Puts a partition in its slot, moving the tier counts by its own before and after. -/
def install (self : IndexState) (key : PartitionKey) (slot : PartitionIndex) : IndexState :=
  let before := (self.partition key).elim {} PartitionIndex.tiers
  { self with
    partitions := self.partitions.insert key slot
    tiers := (self.tiers.add slot.tiers).sub before }

/-- Lands the commits of a partition no effect touched. -/
def landSpan (slot : PartitionIndex) (span : StagedSpan) : PartitionIndex :=
  span.entries.foldl PartitionIndex.push
    ({ slot with endOffset := span.stop }.observe span.when)

/-- Lands a checked batch; nothing here can fail. -/
def land (self : IndexState) (staged : StagedSpans) (projected : Projected) : IndexState :=
  let landed := staged.entries.foldl (fun (s : IndexState) e =>
    if e.1 ∈ projected then s
    else s.install e.1 (landSpan ((s.partition e.1).getD {}) e.2)) self
  projected.entries.foldl (fun (s : IndexState) e => s.install e.1 e.2) landed

/-- Validate the whole batch, then fold it. -/
def apply (self : IndexState) (entries : List MetadataEntry) : Except Error IndexState := do
  let (previous, batch) ← entries.foldlM self.readEntry (self.appliedUpto, {})
  let (projected, changes) ← self.project batch.effects batch.staged
  self.checkQuota batch.staged projected
  return { self.land batch.staged projected with
    references := self.references.apply (changes ++ stagedChanges batch.staged)
    appliedUpto := previous }

def new : IndexState := {}

def clear (self : IndexState) : IndexState := { quota := self.quota }

def withQuota (quota : IndexQuota) : IndexState := { quota := some quota }

end IndexState

end Oqueue
