import Oqueue.Broker.Ingest
import Oqueue.Codec.Records

/-!
# What ingest vouches for

An accepted batch is one whole batch, and its count is that of the records a decoder finds in
it. Stamping an offset changes neither.
-/

namespace Oqueue.Broker

open Codec Bytes Reader

/-- One whole batch of the second format, covered by its checksum, whose claims are its count. -/
structure Exact (batch : List UInt8) (header : BatchHeader) (records : Nat) : Prop where
  decodes : decodeBatchHeader batch = .ok header
  magic : batch[16]? = some 2
  spans : header.batchLength + 12 = batch.length
  covers : crcCoverage batch = .ok (batch.drop 21)
  checksum : header.crc = crc32c (batch.drop 21)
  counted : countRecords batch = .ok records
  recordCount : header.recordCount = records
  lastOffsetDelta : header.lastOffsetDelta + 1 = records
  positive : 1 ≤ records

/-- Both walks over a record area end, and neither leaves it. -/
structure Walks (area : List UInt8) : Prop where
  countEnds : ∀ rounds, area.length ≤ rounds →
    (countLoop area.length rounds 0).run { buf := area } =
      (countLoop area.length area.length 0).run { buf := area }
  countInside : ∀ rounds counted cur,
    (countLoop area.length rounds 0).run { buf := area } = .ok (counted, cur) →
      cur.buf = area ∧ cur.pos ≤ area.length
  iterEnds : ∃ items, (iterRecords area).Yields items
  iterInside : ∀ iter, Relation.ReflTransGen RecordIter.Moves (iterRecords area) iter →
    iter.cur.buf = area ∧ iter.cur.pos ≤ area.length

/-- The same batch at another offset, as far as ingest can tell. -/
structure Stamps (batch stamped : List UInt8) (verified : Verified) : Prop where
  length : stamped.length = batch.length
  elsewhere : ∀ i, 8 ≤ i ∧ i < 12 ∨ 16 ≤ i → stamped[i]? = batch[i]?
  verifies : verify stamped = .ok verified

theorem walks (area : List UInt8) : Walks area := by
  have start : ({ buf := area } : Cursor).Inside := Nat.zero_le _
  refine ⟨?_, ?_, RecordIter.yields_ends start, ?_⟩
  · intro rounds enough
    exact countLoop_ends area.length start (Nat.le_refl _) enough
  · intro rounds counted cur ran
    obtain ⟨same, -, inside⟩ := consumes_countLoop area.length rounds 0 ran start
    rw [Cursor.Inside, same] at inside
    exact ⟨same, inside⟩
  · intro iter moves
    obtain ⟨same, inside⟩ := RecordIter.inside_of_moves start moves
    rw [Cursor.Inside, same] at inside
    exact ⟨same, inside⟩

theorem magic_eq {batch : List UInt8} (long : batchHeaderLen ≤ batch.length)
    (magic : castSigned 8 (fromBeBytes (field batch 16 1)) = magicV2) : batch[16]? = some 2 := by
  rw [batchHeaderLen] at long
  have there : batch[16]? = some batch[16] := List.getElem?_eq_getElem (by omega)
  have one : field batch 16 1 = [batch[16]] := by
    rw [field, List.drop_eq_getElem_cons (by omega), List.take_succ_cons, List.take_zero]
  rw [one] at magic
  rw [there]
  congr 1
  generalize batch[16] = byte at magic
  revert byte
  decide +kernel

theorem Passes.exact {batch : List UInt8} {header : BatchHeader} {verified : Verified}
    (accepted : Passes batch header verified) : Exact batch header verified.records := by
  obtain ⟨decodes, whole, checksum, plain, counted, nonempty, recordCount, lastOffsetDelta, -⟩ :=
    accepted
  obtain ⟨long, magic, -⟩ := decodeBatchHeader_eq_ok.mp decodes
  have covers : crcCoverage batch = .ok (batch.drop crcCoverageStart) := by
    have enough : ¬ (batch.length < batch.length ∨ batch.length < batchHeaderLen) := by omega
    rw [crcCoverage, decodes]
    simp only [Checked.bind_ok, whole, if_neg enough, List.take_length]
    rfl
  refine ⟨decodes, magic_eq long magic, ?_, covers, ?_, counted, recordCount, ?_, nonempty⟩
  · rw [declaredEnd] at whole
    split at whole
    · cases whole
    · have stop := Option.some.inj whole
      omega
  · have stored : storedCrc batch = .ok header.crc := by
      rw [storedCrc, decodes]
      rfl
    rw [checksumHolds, covers, stored] at checksum
    exact (beq_iff_eq.mp checksum).symm
  · omega

theorem Passes.stamps {batch : List UInt8} {header : BatchHeader} {verified : Verified}
    (accepted : Passes batch header verified) (baseOffset partitionLeaderEpoch : Int) :
    ∃ stamped, rewriteBaseOffset batch baseOffset partitionLeaderEpoch = .ok stamped ∧
      Stamps batch stamped verified := by
  have decodes := accepted.decodes
  cases rewrites : rewriteBaseOffset batch baseOffset partitionLeaderEpoch with
  | error e =>
    rw [rewriteBaseOffset, decodes] at rewrites
    cases rewrites
  | ok stamped =>
    have restamped := restamped_of_rewrite rewrites
    obtain ⟨offset, epoch, stampedDecodes⟩ := restamped.decodeBatchHeader decodes
    refine ⟨stamped, rfl, restamped.length, fun i outside => restamped.getElem? outside, ?_⟩
    refine verify_eq_ok_iff.mpr ⟨_, stampedDecodes, ?_, ?_, accepted.plain, ?_, accepted.nonempty,
      accepted.recordCount, accepted.lastOffsetDelta, accepted.producer⟩
    · rw [restamped.length]
      exact accepted.whole
    · rw [checksumHolds, restamped.crcCoverage decodes, restamped.storedCrc decodes]
      exact accepted.checksum
    · rw [restamped.countRecords decodes]
      exact accepted.counted

/-- Ingest is exact: about what it accepts, what it counts, and what a stamp leaves. -/
theorem ingest_exact (batch : List UInt8) :
    (∀ verified, verify batch = .ok verified → (∃ header, Exact batch header verified.records) ∧
      ∀ baseOffset partitionLeaderEpoch, ∃ stamped,
        rewriteBaseOffset batch baseOffset partitionLeaderEpoch = .ok stamped ∧
          Stamps batch stamped verified) ∧
    (∀ area, Walks area) ∧
    (∀ other, crcCoverage other = crcCoverage batch → countRecords other = countRecords batch) ∧
    ∀ area (records : List RecordView), recordArea batch = .ok area →
      (iterRecords area).Yields (records.map .ok) → countRecords batch = .ok records.length := by
  refine ⟨?_, walks, ?_, fun area records covered yields =>
    countRecords_of_yields covered yields⟩
  · intro verified verifies
    obtain ⟨header, accepted⟩ := verify_eq_ok_iff.mp verifies
    exact ⟨⟨header, accepted.exact⟩, accepted.stamps⟩
  · intro other same
    rw [countRecords, countRecords, same]

def bareRecords : List UInt8 := [12, 0, 0, 0, 1, 1, 0, 12, 0, 0, 2, 1, 1, 0]

def twoRecords : List UInt8 := encodeBatchHeader
    { baseOffset := 0, batchLength := 63, partitionLeaderEpoch := 0, crc := 0x47D72E50
      attributes := 0, lastOffsetDelta := 1, baseTimestamp := 0, maxTimestamp := 0, producerId := 7
      producerEpoch := 0, baseSequence := 0, recordCount := 2 } ++
  bareRecords

theorem ingest_exact_twoRecords : countRecords twoRecords = .ok 2 ∧ ∃ stamped,
    rewriteBaseOffset twoRecords 40 3 = .ok stamped ∧
      verify stamped = .ok ⟨2, some ⟨7, 0, 0⟩⟩ := by
  obtain ⟨accepts, -, -, agrees⟩ := ingest_exact twoRecords
  obtain ⟨-, stamps⟩ := accepts ⟨2, some ⟨7, 0, 0⟩⟩ (by decide +kernel)
  obtain ⟨stamped, rewrites, same⟩ := stamps 40 3
  refine ⟨?_, stamped, rewrites, same.verifies⟩
  refine agrees bareRecords
    [⟨0, 0, 0, none, none, []⟩, ⟨0, 0, 1, none, none, []⟩] (by decide +kernel) ?_
  refine @RecordIter.Yields.item _ ⟨⟨bareRecords, 7⟩, false⟩ _ _ (by decide +kernel) ?_
  refine @RecordIter.Yields.item _ ⟨⟨bareRecords, 14⟩, false⟩ _ _ (by decide +kernel) (.done ?_)
  decide +kernel

end Oqueue.Broker
