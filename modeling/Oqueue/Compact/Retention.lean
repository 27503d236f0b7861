import Oqueue.Index.Page

/-!
# When each partition's data expires

The heap holds one deadline for each armed partition: its newest commit's time plus
its retention. A round pops only what is due, and acts on a deadline only if the
index still agrees with it.
-/

namespace Oqueue

def defaultRetentionMs : Int := 604800000

/-- An addition of `i64`s, when the sum is one. -/
def checkedAddI64 (a b : Int) : Option Int :=
  if -(2 ^ 63 : Int) ≤ a + b ∧ a + b < 2 ^ 63 then some (a + b) else none

abbrev Expiry := Int × PartitionKey

/-- The heap's order: by deadline, then topic, then partition. -/
def Expiry.before (a b : Expiry) : Prop :=
  a.1 < b.1 ∨ (a.1 = b.1 ∧ (a.2.1.name < b.2.1.name ∨
    (a.2.1.name = b.2.1.name ∧ a.2.2 ≤ b.2.2)))

instance (a b : Expiry) : Decidable (Expiry.before a b) := by
  unfold Expiry.before
  infer_instance

structure ExpiryHeap where
  /-- Every armed partition's deadline, earliest first. -/
  due : List Expiry := []
  armed : AList fun _ : PartitionKey => Int := ∅
  /-- The topics of the armed partitions, in order. -/
  topics : List TopicId := []
  retentionMs : Int
  topicRetentionMs : AList fun _ : TopicId => Int := ∅
  popped : Nat := 0

namespace ExpiryHeap

def new (retentionMs : Int) : ExpiryHeap := { retentionMs := retentionMs }

/-- When a partition's data expires, or `none` if it cannot be judged. -/
def deadline (self : ExpiryHeap) (index : IndexState) (key : PartitionKey) : Option Int :=
  (index.timeSpan key).bind fun span =>
    if span.max = 0 then none
    else checkedAddI64 span.max ((self.topicRetentionMs.lookup key.1).getD self.retentionMs)

def insertOrdered {α : Type} [DecidableEq α] (r : α → α → Prop) [DecidableRel r] (a : α)
    (set : List α) : List α :=
  if a ∈ set then set else set.orderedInsert r a

/-- Arms a partition that is not armed; one that is stays where it is. -/
def track (self : ExpiryHeap) (index : IndexState) (key : PartitionKey) : ExpiryHeap :=
  if key ∈ self.armed then self
  else match self.deadline index key with
    | none => self
    | some deadline => { self with
        armed := self.armed.insert key deadline
        topics := insertOrdered (fun a b : TopicId => a.name ≤ b.name) key.1 self.topics
        due := insertOrdered Expiry.before (deadline, key) self.due }

/-- Disarms a partition and arms it again at the deadline it now has. -/
def rearm (self : ExpiryHeap) (index : IndexState) (key : PartitionKey) : ExpiryHeap :=
  let disarmed := match self.armed.lookup key with
    | none => self
    | some deadline => { self with
        armed := self.armed.erase key
        due := self.due.erase (deadline, key) }
  disarmed.track index key

/-- Applies a topic's retention and re-arms its partitions against it. -/
def setTopicRetention (self : ExpiryHeap) (index : IndexState) (topic : TopicId)
    (retentionMs : Option Int) : ExpiryHeap :=
  let changed := match retentionMs with
    | some value => decide (self.topicRetentionMs.lookup topic ≠ some value)
    | none => decide (topic ∈ self.topicRetentionMs)
  if !changed then self
  else
    let held := { self with
      topicRetentionMs := match retentionMs with
        | some value => self.topicRetentionMs.insert topic value
        | none => self.topicRetentionMs.erase topic }
    (held.armed.keys.filter fun key => key.1 = topic).foldl
      (fun heap key => heap.rearm index key) held

/-- Up to `limit` topics after `after`, wrapping to the beginning. -/
def topicsAfter (self : ExpiryHeap) (after : Option TopicId) (limit : Nat) : List TopicId :=
  match after with
  | none => self.topics.take limit
  | some after =>
    let topics := (self.topics.filter fun topic => after.name < topic.name).take limit
    topics ++ self.topics.take (limit - topics.length)

/-- A round so far: the heap, the trims it emits, and what to arm again when it ends. -/
structure Popping where
  heap : ExpiryHeap
  trims : List MetadataRecord := []
  rearm : List PartitionKey := []

/-- Takes a partition out of the armed ones, and its topic with its last. -/
def disarm (self : ExpiryHeap) (key : PartitionKey) : ExpiryHeap :=
  let armed := self.armed.erase key
  { self with
    armed := armed
    topics := if armed.keys.any fun held => held.1 = key.1 then self.topics
      else self.topics.erase key.1 }

/-- One entry that has come due. -/
def Popping.pop (self : Popping) (index : IndexState) (entry : Expiry) : Popping :=
  let heap := { self.heap with popped := self.heap.popped + 1 }
  let key := entry.2
  if heap.armed.lookup key ≠ some entry.1 then { self with heap := heap }
  else if heap.deadline index key = some entry.1 then
    { self with
      heap := heap.disarm key
      trims := if index.logStart key < index.endOffset key
        then self.trims ++ [.trimmed key.1 key.2 (index.endOffset key)] else self.trims }
  else { self with heap := heap.disarm key, rearm := self.rearm ++ [key] }

/-- The loop of `due`: nothing it pops is pushed back before it ends. -/
def popDue (index : IndexState) (now : Nat) : List Expiry → Popping → Popping
  | [], popping => popping
  | entry :: rest, popping =>
    if (now : Int) < entry.1 then popping
    else popDue index now rest
      ({ popping with heap := { popping.heap with due := rest } }.pop index entry)

/-- The trims due at `now`. -/
def dueAt (self : ExpiryHeap) (index : IndexState) (now : Nat) :
    ExpiryHeap × List MetadataRecord :=
  let popping := popDue index now self.due { heap := { self with popped := 0 } }
  (popping.rearm.foldl (fun heap key => heap.track index key) popping.heap, popping.trims)

end ExpiryHeap

end Oqueue
