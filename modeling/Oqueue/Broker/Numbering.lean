import Oqueue.Broker.Ingest
import Oqueue.Coordinator.Lines

/-!
# A conforming producer's numbering

The protocol numbers batches by the records before them; admission expects the
next number after the last batch's own. The two agree exactly as long as every
batch but the last has one record.
-/

namespace Oqueue

open Checked

namespace Allocator

theorem admitSpans_single {a : Allocator} {span : CommittedSpan} {identity : ProducerIdentity}
    (hproducer : span.producer = some identity) :
    (Follows ((a.producerState.lookup (identity.id, span.topic, span.partition)).map
        ProducerState.mark) (identity.epoch, identity.sequence) ∧
      (a.admitSpans [span]).admitted = [(0, span)]) ∨
    (¬ Follows ((a.producerState.lookup (identity.id, span.topic, span.partition)).map
        ProducerState.mark) (identity.epoch, identity.sequence) ∧
      (a.admitSpans [span]).admitted = []) := by
  rw [← @classify_eq_admits _ false _ _ span.recordCount]
  unfold admitSpans
  rw [List.zipIdx_singleton, List.foldl_cons, List.foldl_nil]
  unfold admitSpan
  rw [hproducer]
  have fresh : a.currentLine ∅ (identity.id, span.topic, span.partition) =
      (a.producerState.lookup (identity.id, span.topic, span.partition), false) := rfl
  dsimp only
  rw [fresh]
  cases classify (a.producerState.lookup (identity.id, span.topic, span.partition)) false
      identity.sequence identity.epoch span.recordCount with
  | admits => exact .inl ⟨rfl, rfl⟩
  | replay state => exact .inr ⟨by simp, rfl⟩
  | reject reason => exact .inr ⟨by simp, rfl⟩

theorem stage_single {a : Allocator} {object : ObjectKey} {span : CommittedSpan} {writtenAt : Nat}
    (room : (a.endOffset span.key).getD 0 + span.recordCount ≤ i64Max)
    (versions : a.nextVersion + 1 ≤ u64Max) :
    ∃ staged, a.stage object [span] writtenAt = .ok staged ∧
      staged.assignments = [⟨span.topic, span.partition, (a.endOffset span.key).getD 0,
        span.recordCount⟩] ∧
      staged.ends = [(span.key, (a.endOffset span.key).getD 0 + span.recordCount)] ∧
      staged.producerEnds = producerEnd span ((a.endOffset span.key).getD 0) ∧
      staged.nextVersion = a.nextVersion + 1 := by
  have assigned := @stageSpan_eq_ok a {} _ span |>.mpr ⟨room, rfl⟩
  have version := CommitVersion.advance_eq_ok.mpr ⟨rfl, versions⟩
  unfold stage
  rw [List.foldlM_cons, assigned]
  simp only [bind_ok, List.foldlM_nil]
  rw [version]
  exact ⟨_, rfl, rfl, rfl, rfl, rfl⟩

theorem lookup_apply_single {a : Allocator} (bounded : a.Bounded) {staged : Staged}
    {line : ProducerLine} {state : ProducerState} (h : staged.producerEnds = [(line, state)]) :
    (a.apply staged).1.producerState.lookup line = some state := by
  have newest := @evictRounds_newest (a.producerState.insert line state)
    (a.producerRecency.touch line) maxTrackedProducers (a.producerRecency.touch line).order.length
    (by decide) (bounded.tracked.touch line state) _ _ line rfl
  have applied := congrArg Prod.fst (a.apply_producers staged)
  unfold touched at applied
  rw [h] at applied
  dsimp only [List.foldl_cons, List.foldl_nil] at applied
  rw [applied]
  exact newest.trans (Finmap.lookup_insert _)

end Allocator

namespace Broker

/-- One produced batch, with the object, region and time its commit carries. -/
structure Produced where
  batch : List UInt8
  object : ObjectKey
  bytes : ByteRange
  writtenAt : Nat

section Producing
variable (topic : TopicId) (partition : Nat)

def spanOf (bytes : ByteRange) (verified : Verified) : CommittedSpan :=
  ⟨topic, partition, verified.records, bytes, verified.producer⟩

def commitOf (sent : Produced) (verified : Verified) : LoopRequest :=
  .commit sent.object [spanOf topic partition sent.bytes verified] sent.writtenAt

/-- Ingest, and then a commit that the journal takes when it is admitted. -/
def produce (loop : CoordinatorLoop) (sent : Produced) : CoordinatorLoop :=
  match verify sent.batch with
  | .error _ => loop
  | .ok verified => loop.turn (commitOf topic partition sent verified, .ok ())

/-- Ingest lets the batch through and its span is journaled as a new one. -/
def Accepted (loop : CoordinatorLoop) (sent : Produced) : Prop :=
  ∃ verified base, verify sent.batch = .ok verified ∧
    loop.journaledBy (commitOf topic partition sent verified, .ok ()) =
      [(spanOf topic partition sent.bytes verified, base)]

/-- Every batch is accepted, each sent once the one before is acknowledged. -/
def AllAccepted : CoordinatorLoop → List Produced → Prop
  | _, [] => True
  | loop, sent :: rest => Accepted topic partition loop sent ∧
      AllAccepted (produce topic partition loop sent) rest

/-- The protocol's numbering: a batch's sequence is the one before plus its records. -/
def Conforming (id epoch : Nat) : Int → List (Produced × Nat) → Prop
  | _, [] => True
  | sequence, (sent, records) :: rest => WellFormed sent.batch ⟨id, epoch, sequence⟩ records ∧
      Conforming id epoch ((sequence + records) % 2 ^ 31) rest

def totalRecords (sends : List (Produced × Nat)) : Nat := (sends.map Prod.snd).sum

/-- The partition and the version line can hold what is to be produced. -/
structure Room (loop : CoordinatorLoop) (sends : List (Produced × Nat)) : Prop where
  offsets : (loop.allocator.endOffset (topic, partition)).getD 0 + totalRecords sends ≤ i64Max
  versions : loop.allocator.nextVersion + sends.length ≤ u64Max

variable {topic partition}

theorem accepted_cases {loop : CoordinatorLoop} (live : loop.Live) {sent : Produced}
    {identity : ProducerIdentity} {records : Nat} {rest : List (Produced × Nat)}
    (formed : WellFormed sent.batch identity records)
    (room : Room topic partition loop ((sent, records) :: rest)) :
    (Follows ((loop.allocator.producerState.lookup (identity.id, topic, partition)).map
        ProducerState.mark) (identity.epoch, identity.sequence) ∧
      Accepted topic partition loop sent ∧
      (∃ base, (produce topic partition loop sent).allocator.producerState.lookup
        (identity.id, topic, partition) =
          some ⟨identity.epoch, identity.sequence, base, records⟩) ∧
      Room topic partition (produce topic partition loop sent) rest) ∨
    (¬ Follows ((loop.allocator.producerState.lookup (identity.id, topic, partition)).map
        ProducerState.mark) (identity.epoch, identity.sequence) ∧
      ¬ Accepted topic partition loop sent) := by
  have verified := verify_eq_ok.mpr formed
  have offsets := room.offsets
  have versions := room.versions
  simp only [totalRecords, List.map_cons, List.sum_cons, List.length_cons] at offsets versions
  obtain ⟨follows, hadmitted⟩ | ⟨breaks, hadmitted⟩ := @Allocator.admitSpans_single loop.allocator
    (spanOf topic partition sent.bytes ⟨records, some identity⟩) identity rfl
  · obtain ⟨staged, hstaged, hassignments, hends, hproducers, hversion⟩ :=
      @Allocator.stage_single loop.allocator sent.object
        (spanOf topic partition sent.bytes ⟨records, some identity⟩) sent.writtenAt
        (by dsimp only [spanOf, CommittedSpan.key]; omega) (by omega)
    have turned : produce topic partition loop sent = loop.taken staged := by
      simp only [produce, verified, commitOf, CoordinatorLoop.turn, CoordinatorLoop.serve, hadmitted,
        List.map_cons, List.map_nil, List.isEmpty_cons, hstaged]
      rfl
    refine .inl ⟨follows, ⟨_, (loop.allocator.endOffset (topic, partition)).getD 0, verified, ?_⟩,
      ⟨(loop.allocator.endOffset (topic, partition)).getD 0, ?_⟩, ?_⟩
    · simp only [commitOf, CoordinatorLoop.journaledBy, hadmitted, List.map_cons, List.map_nil,
        List.isEmpty_cons, hstaged, hassignments]
      rfl
    · rw [turned]
      exact Allocator.lookup_apply_single live.bounded hproducers
    · rw [turned]
      refine ⟨?_, ?_⟩
      · have ended : (loop.allocator.apply staged).1.endOffset (topic, partition) =
            some ((loop.allocator.endOffset (topic, partition)).getD 0 + records) := by
          unfold Allocator.apply
          dsimp only
          rw [hends]
          exact Finmap.lookup_insert loop.allocator.endOffsets
        unfold CoordinatorLoop.taken
        rw [ended]
        simp only [Option.getD_some, totalRecords]
        omega
      · have moved : (loop.taken staged).allocator.nextVersion = staged.nextVersion := rfl
        rw [moved, hversion]
        omega
  · refine .inr ⟨breaks, ?_⟩
    rintro ⟨verified', base, hverified, hjournaled⟩
    rw [verified] at hverified
    cases hverified
    simp [commitOf, CoordinatorLoop.journaledBy, hadmitted] at hjournaled

theorem Live.produce {loop : CoordinatorLoop} (live : loop.Live) (sent : Produced) :
    (Broker.produce topic partition loop sent).Live := by
  unfold Broker.produce
  split
  · exact live
  · exact live.turn _

theorem WellFormed.records_lt {batch : List UInt8} {identity : ProducerIdentity} {records : Nat}
    (formed : WellFormed batch identity records) : records < 2 ^ 31 := by
  obtain ⟨header, hheader, -, -, hcount, -⟩ := formed.whole
  have := Codec.decodeBatchHeader_recordCount_lt hheader
  omega

theorem wrapped_eq_nextSequence {last : Int} {count : Nat} (sequence : 0 ≤ last ∧ last < 2 ^ 31)
    (records : 0 < count ∧ count < 2 ^ 31) :
    (last + count) % 2 ^ 31 = nextSequence last ↔ count = 1 := by
  unfold nextSequence i32Max
  by_cases top : last = 2147483647
  · rw [if_pos top]
    omega
  · rw [if_neg top]
    omega

/-- From a line that holds a batch of so many records, everything after is
accepted exactly when that batch had one record and so had all but the last. -/
theorem allAccepted_from {id epoch : Nat} {sends : List (Produced × Nat)} {loop : CoordinatorLoop}
    (live : loop.Live) (room : Room topic partition loop sends) {state : ProducerState}
    (held : loop.allocator.producerState.lookup (id, topic, partition) = some state)
    (current : state.epoch = epoch) (sequence : 0 ≤ state.sequence ∧ state.sequence < 2 ^ 31)
    (records : 0 < state.recordCount ∧ state.recordCount < 2 ^ 31)
    (conforming : Conforming id epoch ((state.sequence + state.recordCount) % 2 ^ 31) sends) :
    AllAccepted topic partition loop (sends.map Prod.fst) ↔
      (sends ≠ [] → state.recordCount = 1) ∧ ∀ sent ∈ sends.dropLast, sent.2 = 1 := by
  induction sends generalizing loop state with
  | nil => simp [AllAccepted]
  | cons head rest ih =>
    obtain ⟨sent, count⟩ := head
    obtain ⟨formed, conforming⟩ := conforming
    have expected : Follows ((loop.allocator.producerState.lookup (id, topic, partition)).map
        ProducerState.mark) (epoch, (state.sequence + state.recordCount) % 2 ^ 31) ↔
        state.recordCount = 1 := by
      rw [held]
      simp only [Option.map_some, Follows, ProducerState.mark, current, lt_irrefl, false_and,
        false_or, true_and]
      exact wrapped_eq_nextSequence sequence records
    rw [List.map_cons, AllAccepted]
    obtain ⟨follows, accepted, ⟨base, line⟩, room'⟩ | ⟨breaks, refused⟩ :=
      accepted_cases live formed room
    · have onward := ih (Live.produce live sent) room' line rfl (by dsimp only; omega)
        ⟨formed.nonempty, formed.records_lt⟩ conforming
      dsimp only at onward
      rw [onward]
      cases rest with
      | nil => simp [accepted, expected.mp follows]
      | cons next rest =>
        simp [accepted, expected.mp follows]
    · have many := mt expected.mpr breaks
      simp [refused, many]

/-- A conforming producer, on a line no epoch of it has used, after any run: its
batches are all accepted exactly when every batch but the last has one record. -/
theorem conforming_accepted_iff (requests : List (LoopRequest × Except Error Unit))
    {id epoch : Nat} {sends : List (Produced × Nat)}
    (fresh : ∀ state, (CoordinatorLoop.run requests).allocator.producerState.lookup
      (id, topic, partition) = some state → state.epoch < epoch)
    (room : Room topic partition (CoordinatorLoop.run requests) sends)
    (conforming : Conforming id epoch 0 sends) :
    AllAccepted topic partition (CoordinatorLoop.run requests) (sends.map Prod.fst) ↔
      ∀ sent ∈ sends.dropLast, sent.2 = 1 := by
  have live := CoordinatorLoop.Live.run requests
  cases sends with
  | nil => simp [AllAccepted]
  | cons head rest =>
    obtain ⟨sent, count⟩ := head
    obtain ⟨formed, conforming⟩ := conforming
    have follows : Follows (((CoordinatorLoop.run requests).allocator.producerState.lookup
        (id, topic, partition)).map ProducerState.mark) (epoch, 0) := by
      cases held : (CoordinatorLoop.run requests).allocator.producerState.lookup
          (id, topic, partition) with
      | none => rfl
      | some state => exact .inl ⟨fresh state held, rfl⟩
    obtain ⟨-, accepted, ⟨base, line⟩, room'⟩ | ⟨breaks, -⟩ := accepted_cases live formed room
    · have onward := allAccepted_from (Live.produce live sent) room' line rfl (by simp)
        ⟨formed.nonempty, formed.records_lt⟩ conforming
      dsimp only at onward
      rw [List.map_cons, AllAccepted, onward]
      cases rest <;> simp [accepted]
    · exact absurd follows breaks

end Producing

/-- A batch of so many bare records at a sequence, checksummed. -/
def bareBatch (identity : ProducerIdentity) (records : Nat) : List UInt8 :=
  let body : List UInt8 := (List.range records).flatMap fun index =>
    [12, 0, 0, UInt8.ofNat (2 * index), 1, 1, 0]
  let header : Codec.BatchHeader :=
    { baseOffset := 0, batchLength := 49 + body.length, partitionLeaderEpoch := 0, crc := 0
      attributes := 0, lastOffsetDelta := records - 1, baseTimestamp := 0, maxTimestamp := 0
      producerId := identity.id, producerEpoch := identity.epoch
      baseSequence := identity.sequence, recordCount := records }
  let covered := (Codec.encodeBatchHeader header ++ body).drop Codec.crcCoverageStart
  Codec.encodeBatchHeader { header with crc := Codec.crc32c covered } ++ body

/-- Batches of a producer, by their sequences and record counts. -/
def bareSends (batches : List (Int × Nat)) : List (Produced × Nat) :=
  batches.map fun b => (⟨bareBatch ⟨7, 0, b.1⟩ b.2, ⟨"a"⟩, .bounded 0 1, 5⟩, b.2)

theorem conforming_accepted_iff_bareSends :
    AllAccepted ⟨"t"⟩ 0 (CoordinatorLoop.run []) ((bareSends [(0, 1), (1, 1), (2, 3)]).map Prod.fst) := by
  refine (@conforming_accepted_iff ⟨"t"⟩ 0 [] 7 0 _ ?_ ⟨by decide, by decide⟩ ?_).mpr (by decide)
  · exact fun _ held => by cases held
  · exact ⟨verify_eq_ok.mp (by decide +kernel), verify_eq_ok.mp (by decide +kernel),
      verify_eq_ok.mp (by decide +kernel), trivial⟩

/-- Two records and then one, numbered 0 and 2, are refused as out of order. -/
theorem conforming_refused :
    Conforming 7 0 0 (bareSends [(0, 2), (2, 1)]) ∧
      ¬ AllAccepted ⟨"t"⟩ 0 (CoordinatorLoop.run [])
        ((bareSends [(0, 2), (2, 1)]).map Prod.fst) ∧
      (((CoordinatorLoop.run [(commitOf ⟨"t"⟩ 0 ⟨[], ⟨"a"⟩, .bounded 0 1, 5⟩ ⟨2, some ⟨7, 0, 0⟩⟩,
        .ok ())]).serve ⟨"a"⟩ [spanOf ⟨"t"⟩ 0 (.bounded 0 1) ⟨1, some ⟨7, 0, 2⟩⟩] 5 (.ok ())).2.map
          CommitAck.outcomes) = .ok [.rejected .outOfOrder] := by
  have first : verify (bareBatch ⟨7, 0, 0⟩ 2) = .ok ⟨2, some ⟨7, 0, 0⟩⟩ := by decide +kernel
  have second : verify (bareBatch ⟨7, 0, 2⟩ 1) = .ok ⟨1, some ⟨7, 0, 2⟩⟩ := by decide +kernel
  refine ⟨⟨verify_eq_ok.mp first, verify_eq_ok.mp second, trivial⟩, ?_, by decide +kernel⟩
  rintro ⟨-, ⟨verified, base, hverified, hjournaled⟩, -⟩
  have after : produce ⟨"t"⟩ 0 (CoordinatorLoop.run []) ⟨bareBatch ⟨7, 0, 0⟩ 2, ⟨"a"⟩, .bounded 0 1, 5⟩ =
      (CoordinatorLoop.run []).turn (commitOf ⟨"t"⟩ 0 ⟨bareBatch ⟨7, 0, 0⟩ 2, ⟨"a"⟩, .bounded 0 1, 5⟩
        ⟨2, some ⟨7, 0, 0⟩⟩, .ok ()) := by
    simp only [produce, first]
  cases second.symm.trans hverified
  rw [after] at hjournaled
  cases hjournaled

end Broker

end Oqueue
