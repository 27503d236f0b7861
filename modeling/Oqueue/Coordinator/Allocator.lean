import Oqueue.Core.Record
import Oqueue.Coordinator.Expiry

/-!
# The single monotonic allocator

`stage` computes the position a commit would take without taking it; `apply`
takes it, once the journal has the entry. `replay` folds an entry already in the
log by the same two steps.
-/

namespace Oqueue

open Checked

abbrev ProducerLine := Nat × TopicId × Nat

structure ProducerState where
  epoch : Nat
  sequence : Int
  baseOffset : Nat
  recordCount : Nat
  deriving DecidableEq, Repr

/-- An admitted span's state, before its real offset is known. -/
def ProducerState.provisional (epoch : Nat) (sequence : Int) (recordCount : Nat) : ProducerState :=
  ⟨epoch, sequence, 0, recordCount⟩

structure Assignment where
  topic : TopicId
  partition : Nat
  baseOffset : Nat
  recordCount : Nat
  deriving DecidableEq, Repr

abbrev Assignment.key (a : Assignment) : PartitionKey := (a.topic, a.partition)

def Assignment.stop (a : Assignment) : Nat := a.baseOffset + a.recordCount

@[ext] structure Allocator where
  nextVersion : Nat := 0
  endOffsets : Finmap fun _ : PartitionKey => Nat := ∅
  producerState : Finmap fun _ : ProducerLine => ProducerState := ∅
  producerRecency : Recency ProducerLine := {}

namespace Allocator

/-- A commit that has been assigned a position but not yet journaled. -/
structure Staged where
  entry : MetadataEntry
  assignments : List Assignment
  ends : List (PartitionKey × Nat)
  producerEnds : List (ProducerLine × ProducerState)
  nextVersion : Nat

/-- What the loop over a commit's spans has assigned so far. -/
structure Staging where
  running : AList fun _ : PartitionKey => Nat := ∅
  assignments : List Assignment := []
  producerEnds : List (ProducerLine × ProducerState) := []

def endOffset (self : Allocator) (key : PartitionKey) : Option Nat := self.endOffsets.lookup key

/-- The running value first and the committed line only then. -/
def runningEnd (self : Allocator) (acc : Staging) (key : PartitionKey) : Nat :=
  (acc.running.lookup key).getD ((self.endOffset key).getD 0)

/-- The producer state an assigned span leaves on its line. -/
def producerEnd (span : CommittedSpan) (base : Nat) : List (ProducerLine × ProducerState) :=
  match span.producer with
  | none => []
  | some identity => [((identity.id, span.topic, span.partition),
      ⟨identity.epoch, identity.sequence, base, span.recordCount⟩)]

def stageSpan (self : Allocator) (acc : Staging) (span : CommittedSpan) : Except Error Staging := do
  let base := self.runningEnd acc span.key
  let next ← Offset.add base span.recordCount
  return {
    running := acc.running.insert span.key next
    assignments := acc.assignments ++ [⟨span.topic, span.partition, base, span.recordCount⟩]
    producerEnds := acc.producerEnds ++ producerEnd span base }

/-- Computes the position `spans` would occupy, without taking it. -/
def stage (self : Allocator) (object : ObjectKey) (spans : List CommittedSpan) (writtenAt : Nat) :
    Except Error Staged := do
  let acc ← spans.foldlM self.stageSpan {}
  let nextVersion ← CommitVersion.advance self.nextVersion 1
  return {
    entry := ⟨self.nextVersion, .batchCommitted object spans writtenAt⟩
    assignments := acc.assignments
    ends := acc.running.entries.map fun e => (e.1, e.2)
    producerEnds := acc.producerEnds
    nextVersion := nextVersion }

def stageRecord (self : Allocator) (record : MetadataRecord) : Except Error Staged := do
  let nextVersion ← CommitVersion.advance self.nextVersion 1
  return {
    entry := ⟨self.nextVersion, record⟩
    assignments := []
    ends := []
    producerEnds := []
    nextVersion := nextVersion }

/-- Refused here when it is past the partition's end, before the journal sees it. -/
def stageTrim (self : Allocator) (topic : TopicId) (partition start : Nat) :
    Except Error Staged :=
  let stop := (self.endOffset (topic, partition)).getD 0
  if stop < start then .error (.trimPastEnd topic.name partition start stop)
  else self.stageRecord (.trimmed topic partition start)

def stageRetention (self : Allocator) (topic : TopicId) (retentionMs : Option Int) :
    Except Error Staged :=
  self.stageRecord (.topicRetentionChanged topic retentionMs)

/-- The rounds of `evictOverCap`; every round forgets one stamp. -/
def evictRounds (cap : Nat) : Nat → (Finmap fun _ : ProducerLine => ProducerState) →
    Recency ProducerLine →
    (Finmap fun _ : ProducerLine => ProducerState) × Recency ProducerLine
  | 0, state, recency => (state, recency)
  | rounds + 1, state, recency =>
    if state.keys.card ≤ cap then (state, recency)
    else match recency.evictOldest with
      | none => (state, recency)
      | some (oldest, recency) => evictRounds cap rounds (state.erase oldest) recency

/-- Evicts, guided by `recency`, until at most `cap` entries remain. -/
def evictOverCap (state : Finmap fun _ : ProducerLine => ProducerState)
    (recency : Recency ProducerLine) (cap : Nat) :
    (Finmap fun _ : ProducerLine => ProducerState) × Recency ProducerLine :=
  evictRounds cap recency.order.length state recency

/-- Takes the position `stage` computed, once it is durable; nothing here can fail. -/
def apply (self : Allocator) (staged : Staged) : Allocator × Nat × List Assignment :=
  let endOffsets := staged.ends.foldl (fun ends e => ends.insert e.1 e.2) self.endOffsets
  let producers := staged.producerEnds.foldl
    (fun (held : (Finmap fun _ : ProducerLine => ProducerState) × Recency ProducerLine) e =>
      (held.1.insert e.1 e.2, held.2.touch e.1)) (self.producerState, self.producerRecency)
  let (producerState, producerRecency) :=
    evictOverCap producers.1 producers.2 maxTrackedProducers
  (⟨staged.nextVersion, endOffsets, producerState, producerRecency⟩,
    staged.entry.version, staged.assignments)

/-- Folds one entry already in the log, as the commit that wrote it did. -/
def replay (self : Allocator) (entry : MetadataEntry) : Except Error Allocator := do
  if entry.version < self.nextVersion then
    throw (.nonMonotonicCommitVersion (self.nextVersion - 1) entry.version)
  let self := { self with nextVersion := entry.version }
  match entry.record with
  | .batchCommitted object spans writtenAt =>
    let staged ← self.stage object spans writtenAt
    return (self.apply staged).1
  | _ =>
    let nextVersion ← CommitVersion.advance self.nextVersion 1
    return { self with nextVersion := nextVersion }

theorem stageSpan_eq_ok {a : Allocator} {acc acc' : Staging} {span : CommittedSpan} :
    a.stageSpan acc span = .ok acc' ↔
      a.runningEnd acc span.key + span.recordCount ≤ i64Max ∧ acc' = {
        running := acc.running.insert span.key (a.runningEnd acc span.key + span.recordCount)
        assignments := acc.assignments ++
          [⟨span.topic, span.partition, a.runningEnd acc span.key, span.recordCount⟩]
        producerEnds := acc.producerEnds ++ producerEnd span (a.runningEnd acc span.key) } := by
  unfold stageSpan
  rw [bind_eq_ok]
  simp only [Offset.add_eq_ok]
  constructor
  · rintro ⟨_, ⟨rfl, fits⟩, h⟩
    cases h
    exact ⟨fits, rfl⟩
  · rintro ⟨fits, rfl⟩
    exact ⟨_, ⟨rfl, fits⟩, rfl⟩

theorem stage_eq_ok {a : Allocator} {object : ObjectKey} {spans : List CommittedSpan}
    {writtenAt : Nat} {staged : Staged} :
    a.stage object spans writtenAt = .ok staged ↔
      ∃ acc, spans.foldlM a.stageSpan {} = .ok acc ∧ a.nextVersion + 1 ≤ u64Max ∧ staged = {
        entry := ⟨a.nextVersion, .batchCommitted object spans writtenAt⟩
        assignments := acc.assignments
        ends := acc.running.entries.map fun e => (e.1, e.2)
        producerEnds := acc.producerEnds
        nextVersion := a.nextVersion + 1 } := by
  unfold stage
  simp only [bind_eq_ok, CommitVersion.advance_eq_ok]
  constructor
  · rintro ⟨acc, hacc, _, ⟨rfl, fits⟩, h⟩
    cases h
    exact ⟨acc, hacc, fits, rfl⟩
  · rintro ⟨acc, hacc, fits, rfl⟩
    exact ⟨acc, hacc, _, ⟨rfl, fits⟩, rfl⟩

theorem stage_positional {a : Allocator} {spans : List CommittedSpan} {acc : Staging}
    (h : spans.foldlM a.stageSpan {} = .ok acc) :
    acc.assignments.map (fun x => (x.key, x.recordCount)) =
      spans.map fun span => (span.key, span.recordCount) := by
  induction spans using List.reverseRecOn generalizing acc with
  | nil =>
    cases h
    rfl
  | append_singleton before span ih =>
    rw [foldlM_snoc, bind_eq_ok] at h
    obtain ⟨mid, hmid, hstep⟩ := h
    obtain ⟨-, rfl⟩ := stageSpan_eq_ok.mp hstep
    rw [List.map_append, List.map_append, ih hmid]
    rfl

theorem stage_producerEnds {a : Allocator} {spans : List CommittedSpan} {acc : Staging}
    (h : spans.foldlM a.stageSpan {} = .ok acc) :
    acc.producerEnds = (spans.zip (acc.assignments.map Assignment.baseOffset)).flatMap
      fun item => producerEnd item.1 item.2 := by
  induction spans using List.reverseRecOn generalizing acc with
  | nil =>
    cases h
    rfl
  | append_singleton before span ih =>
    rw [foldlM_snoc, bind_eq_ok] at h
    obtain ⟨mid, hmid, hstep⟩ := h
    have lengths : before.length = (mid.assignments.map Assignment.baseOffset).length := by
      have := congrArg List.length (stage_positional hmid)
      simpa using this.symm
    obtain ⟨-, rfl⟩ := stageSpan_eq_ok.mp hstep
    rw [List.map_append, List.zip_append lengths, List.flatMap_append, ← ih hmid]
    simp

theorem stageRecord_eq_ok {a : Allocator} {record : MetadataRecord} {staged : Staged} :
    a.stageRecord record = .ok staged ↔ a.nextVersion + 1 ≤ u64Max ∧
      staged = ⟨⟨a.nextVersion, record⟩, [], [], [], a.nextVersion + 1⟩ := by
  unfold stageRecord
  simp only [bind_eq_ok, CommitVersion.advance_eq_ok]
  constructor
  · rintro ⟨_, ⟨rfl, fits⟩, h⟩
    cases h
    exact ⟨fits, rfl⟩
  · rintro ⟨fits, rfl⟩
    exact ⟨_, ⟨rfl, fits⟩, rfl⟩

theorem stageTrim_eq_ok {a : Allocator} {topic : TopicId} {partition start : Nat}
    {staged : Staged} :
    a.stageTrim topic partition start = .ok staged ↔
      start ≤ (a.endOffset (topic, partition)).getD 0 ∧
        a.stageRecord (.trimmed topic partition start) = .ok staged := by
  unfold stageTrim
  dsimp only
  split
  · rename_i past
    simp [Nat.not_le.mpr past]
  · rename_i inside
    simp [Nat.not_lt.mp inside]

theorem replay_commit {a a' : Allocator} {version : Nat} {object : ObjectKey}
    {spans : List CommittedSpan} {writtenAt : Nat} :
    a.replay ⟨version, .batchCommitted object spans writtenAt⟩ = .ok a' ↔
      a.nextVersion ≤ version ∧ ∃ staged,
        { a with nextVersion := version }.stage object spans writtenAt = .ok staged ∧
          a' = ({ a with nextVersion := version }.apply staged).1 := by
  unfold replay
  dsimp only
  by_cases stale : version < a.nextVersion
  · simp [stale, throw, throwThe, MonadExceptOf.throw]
  · rw [if_neg stale]
    simp only [bind_eq_ok, Nat.not_lt.mp stale, true_and]
    constructor
    · rintro ⟨staged, hstaged, h⟩
      cases h
      exact ⟨staged, hstaged, rfl⟩
    · rintro ⟨staged, hstaged, rfl⟩
      exact ⟨staged, hstaged, rfl⟩

/-- Replaying an entry that commits nothing moves the version line only. -/
theorem replay_other {a a' : Allocator} {entry : MetadataEntry}
    (kind : ∀ object spans writtenAt, entry.record ≠ .batchCommitted object spans writtenAt) :
    a.replay entry = .ok a' ↔ a.nextVersion ≤ entry.version ∧ entry.version + 1 ≤ u64Max ∧
      a' = { a with nextVersion := entry.version + 1 } := by
  have moves : (do
      let nextVersion ← CommitVersion.advance entry.version 1
      return { a with nextVersion := nextVersion } : Except Error Allocator) = .ok a' ↔
        entry.version + 1 ≤ u64Max ∧ a' = { a with nextVersion := entry.version + 1 } := by
    simp only [bind_eq_ok, CommitVersion.advance_eq_ok]
    constructor
    · rintro ⟨_, ⟨rfl, fits⟩, h⟩
      cases h
      exact ⟨fits, rfl⟩
    · rintro ⟨fits, rfl⟩
      exact ⟨_, ⟨rfl, fits⟩, rfl⟩
  obtain ⟨version, record⟩ := entry
  unfold replay
  dsimp only at kind moves ⊢
  by_cases stale : version < a.nextVersion
  · simp [stale, throw, throwThe, MonadExceptOf.throw]
  · rw [if_neg stale]
    simp only [Nat.not_lt.mp stale, true_and]
    cases record with
    | batchCommitted object spans writtenAt => exact absurd rfl (kind object spans writtenAt)
    | manifestPublished => exact moves
    | rangeCompacted => exact moves
    | trimmed => exact moves
    | epochChanged => exact moves
    | topicRetentionChanged => exact moves

structure Tracked (state : Finmap fun _ : ProducerLine => ProducerState)
    (recency : Recency ProducerLine) : Prop where
  coherent : recency.Coherent
  same : ∀ line, line ∈ state ↔ line ∈ recency.lastTouch

theorem Tracked.empty : Tracked ∅ {} where
  coherent := Recency.Coherent.empty
  same := fun _ => ⟨fun h => absurd h Finmap.notMem_empty, fun h => absurd h Finmap.notMem_empty⟩

theorem Tracked.touch {state : Finmap fun _ : ProducerLine => ProducerState}
    {recency : Recency ProducerLine} (tracked : Tracked state recency) (line : ProducerLine)
    (held : ProducerState) : Tracked (state.insert line held) (recency.touch line) where
  coherent := tracked.coherent.touch line
  same := by
    intro other
    rw [Recency.touch_lastTouch, Finmap.mem_insert, Finmap.mem_insert, Finmap.mem_erase,
      tracked.same]
    by_cases same : other = line <;> simp [same]

section Evicting
variable {state : Finmap fun _ : ProducerLine => ProducerState} {recency : Recency ProducerLine}

theorem evictOverCap_of_le {cap : Nat} (h : state.keys.card ≤ cap) :
    evictOverCap state recency cap = (state, recency) := by
  unfold evictOverCap
  cases recency.order.length with
  | zero => rfl
  | succ n =>
    unfold evictRounds
    rw [if_pos h]

theorem Tracked.card_le (tracked : Tracked state recency) :
    state.keys.card ≤ recency.order.length := by
  have sub : state.keys ⊆ (recency.order.map Prod.snd).toFinset := by
    intro line hline
    obtain ⟨stamp, hstamp⟩ := Finmap.mem_iff.mp ((tracked.same line).mp (Finmap.mem_keys.mp hline))
    have held := (tracked.coherent.inverse _ _).mpr hstamp
    exact List.mem_toFinset.mpr (List.mem_map.mpr ⟨_, held, rfl⟩)
  refine le_trans (Finset.card_le_card sub) (le_trans (List.toFinset_card_le _) ?_)
  rw [List.length_map]

/-- With enough rounds, what remains is tracked and within the cap, and exactly
the cap when anything was evicted. -/
theorem evictRounds_spec (cap : Nat) {rounds : Nat} (tracked : Tracked state recency)
    (enough : state.keys.card ≤ rounds) :
    Tracked (evictRounds cap rounds state recency).1 (evictRounds cap rounds state recency).2 ∧
      ((state.keys.card ≤ cap ∧ evictRounds cap rounds state recency = (state, recency)) ∨
        (cap < state.keys.card ∧ (evictRounds cap rounds state recency).1.keys.card = cap)) := by
  induction rounds generalizing state recency with
  | zero => exact ⟨tracked, .inl ⟨by omega, rfl⟩⟩
  | succ rounds ih =>
    unfold evictRounds
    by_cases within : state.keys.card ≤ cap
    · rw [if_pos within]
      exact ⟨tracked, .inl ⟨within, rfl⟩⟩
    · rw [if_neg within]
      have nonempty : 0 < state.keys.card := by omega
      obtain ⟨line, hline⟩ := Finset.card_pos.mp nonempty
      obtain ⟨⟨oldest, recency'⟩, hevict⟩ := tracked.coherent.evictOldest_isSome
        ((tracked.same line).mp (Finmap.mem_keys.mp hline))
      obtain ⟨coherent, hmem, herase⟩ := tracked.coherent.evictOldest hevict
      have tracked' : Tracked (state.erase oldest) recency' := by
        refine ⟨coherent, ?_⟩
        intro other
        rw [herase, Finmap.mem_erase, Finmap.mem_erase, tracked.same]
      have card : (state.erase oldest).keys.card + 1 = state.keys.card := by
        rw [Finmap.keys_erase, Finset.card_erase_add_one]
        exact Finmap.mem_keys.mpr ((tracked.same oldest).mpr hmem)
      rw [hevict]
      obtain ⟨htracked, hrest⟩ := ih tracked' (by omega)
      refine ⟨htracked, .inr ⟨by omega, ?_⟩⟩
      obtain ⟨within', heq⟩ | ⟨-, hcard⟩ := hrest
      · dsimp only
        rw [heq]
        dsimp only
        omega
      · exact hcard

theorem Tracked.evictOverCap (tracked : Tracked state recency) (cap : Nat) :
    Tracked (Allocator.evictOverCap state recency cap).1
      (Allocator.evictOverCap state recency cap).2 :=
  (evictRounds_spec cap tracked tracked.card_le).1

theorem Tracked.evictOverCap_le (tracked : Tracked state recency) (cap : Nat) :
    (Allocator.evictOverCap state recency cap).1.keys.card ≤ cap := by
  obtain ⟨-, ⟨within, heq⟩ | ⟨-, hcard⟩⟩ := evictRounds_spec cap tracked tracked.card_le
  · unfold Allocator.evictOverCap
    rw [heq]
    exact within
  · exact Nat.le_of_eq hcard

theorem Tracked.evictOverCap_eq_of_lt {cap : Nat} (tracked : Tracked state recency)
    (below : (Allocator.evictOverCap state recency cap).1.keys.card < cap) :
    Allocator.evictOverCap state recency cap = (state, recency) := by
  obtain ⟨-, ⟨-, heq⟩ | ⟨-, hcard⟩⟩ := evictRounds_spec cap tracked tracked.card_le
  · exact heq
  · unfold Allocator.evictOverCap at below
    omega

/-- The line touched last is never the one evicted, as long as the cap keeps one. -/
theorem evictRounds_newest {cap rounds : Nat} (keeps : 0 < cap) (tracked : Tracked state recency)
    {front : List (Nat × ProducerLine)} {stamp : Nat} {line : ProducerLine}
    (newest : recency.order = front ++ [(stamp, line)]) :
    (evictRounds cap rounds state recency).1.lookup line = state.lookup line := by
  induction rounds generalizing state recency front with
  | zero => rfl
  | succ rounds ih =>
    unfold evictRounds
    split
    · rfl
    · rename_i crowded
      split
      · rfl
      · rename_i oldest recency' hevict
        obtain ⟨coherent, hmem, herase⟩ := tracked.coherent.evictOldest hevict
        have tracked' : Tracked (state.erase oldest) recency' := by
          refine ⟨coherent, ?_⟩
          intro other
          rw [herase, Finmap.mem_erase, Finmap.mem_erase, tracked.same]
        cases front with
        | nil =>
          -- One stamp is one line, and that is within the cap.
          have := tracked.card_le
          rw [newest] at this
          simp at this
          omega
        | cons first rest =>
          unfold Recency.evictOldest at hevict
          rw [newest] at hevict
          cases hevict
          have ascending := tracked.coherent.ascending
          rw [newest, List.cons_append] at ascending
          have last : (stamp, line) ∈ rest ++ [(stamp, line)] := by simp
          have apart : first.1 ≠ stamp :=
            Nat.ne_of_lt (List.rel_of_pairwise_cons ascending last)
          have other : first.2 ≠ line := by
            intro same
            have atFirst : (first.1, line) ∈ recency.order := by
              rw [newest, ← same]
              exact List.mem_cons_self ..
            have atLast : (stamp, line) ∈ recency.order := by
              rw [newest]
              exact List.mem_cons_of_mem _ last
            exact apart (tracked.coherent.key_unique atFirst atLast)
          have kept := @ih _ _ tracked' (rest.filter fun held => decide (held.1 ≠ first.1))
            (by simp [apart.symm])
          rw [kept, Table.lookup_erase_eq, if_neg (Ne.symm other)]

end Evicting

end Allocator

end Oqueue
