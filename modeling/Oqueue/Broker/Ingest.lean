import Oqueue.Codec.Batch
import Oqueue.Core.Record

/-!
# The ingest rule

A produced blob is storable when it is one whole batch whose checksum covers
it and whose claims about its records hold.
-/

namespace Oqueue.Broker

open Codec Checked

def corruptMessage : Int := 2
def unsupportedForMessageFormat : Int := 43
def unsupportedCompressionType : Int := 76
def invalidRecord : Int := 87

structure Verified where
  records : Nat
  producer : Option ProducerIdentity
  deriving DecidableEq, Repr

/-- The header's idempotent-producer triple; an id of minus one is no producer. -/
def producerIdentity (header : BatchHeader) : Except Unit (Option ProducerIdentity) :=
  if header.producerId = -1 then .ok none
  else if header.producerId < 0 then .error ()
  else if header.producerEpoch < 0 then .error ()
  else .ok (some ⟨header.producerId.toNat, header.producerEpoch.toNat, header.baseSequence⟩)

theorem producerIdentity_eq_ok {header : BatchHeader} {identity : ProducerIdentity} :
    producerIdentity header = .ok (some identity) ↔ header.producerId = identity.id ∧
      header.producerEpoch = identity.epoch ∧ header.baseSequence = identity.sequence := by
  obtain ⟨id, epoch, sequence⟩ := identity
  unfold producerIdentity
  constructor
  · intro h
    split at h
    · cases h
    · split at h
      · cases h
      · split at h
        · cases h
        · cases h
          dsimp only
          omega
  · rintro ⟨hid, hepoch, hsequence⟩
    dsimp only at hid hepoch hsequence
    rw [hid, hepoch, hsequence, if_neg (by omega), if_neg (by omega), if_neg (by omega)]
    rfl

/-- Whether the checksum a batch stores is that of the bytes it covers. -/
def checksumHolds (batch : List UInt8) : Bool :=
  match crcCoverage batch, storedCrc batch with
  | .ok coverage, .ok stored => crc32c coverage == stored
  | _, _ => false

/-- Judges `batch`, with the error code to refuse it with. -/
def verify (batch : List UInt8) : Except Int Verified :=
  match decodeBatchHeader batch with
  | .error (.wrongMagic _) => .error unsupportedForMessageFormat
  | .error _ => .error corruptMessage
  | .ok header =>
    if declaredEnd header ≠ some batch.length then .error invalidRecord
    else if !checksumHolds batch then .error corruptMessage
    else if compression header.attributes ≠ .none then .error unsupportedCompressionType
    else match countRecords batch with
      | .error _ => .error invalidRecord
      | .ok counted =>
        if counted = 0 then .error invalidRecord
        else if header.recordCount ≠ counted ∨ header.lastOffsetDelta ≠ counted - 1 then
          .error invalidRecord
        else match producerIdentity header with
          | .error _ => .error invalidRecord
          | .ok producer => .ok ⟨counted, producer⟩

/-- What ingest has checked of a batch it accepts. -/
structure Passes (batch : List UInt8) (header : BatchHeader) (verified : Verified) : Prop where
  decodes : decodeBatchHeader batch = .ok header
  whole : declaredEnd header = some batch.length
  checksum : checksumHolds batch = true
  plain : compression header.attributes = .none
  counted : countRecords batch = .ok verified.records
  nonempty : 0 < verified.records
  recordCount : header.recordCount = verified.records
  lastOffsetDelta : header.lastOffsetDelta = verified.records - 1
  producer : producerIdentity header = .ok verified.producer

theorem verify_eq_ok_iff {batch : List UInt8} {verified : Verified} :
    verify batch = .ok verified ↔ ∃ header, Passes batch header verified := by
  constructor
  · intro h
    unfold verify at h
    split at h
    · cases h
    · cases h
    · rename_i header decodes
      split at h
      · cases h
      · rename_i whole
        split at h
        · cases h
        · rename_i checksum
          split at h
          · cases h
          · rename_i plain
            split at h
            · cases h
            · rename_i records counted
              split at h
              · cases h
              · rename_i nonempty
                split at h
                · cases h
                · rename_i claims
                  split at h
                  · cases h
                  · rename_i producer identified
                    cases h
                    rw [not_or, not_not, not_not] at claims
                    rw [Bool.not_eq_true, Bool.not_eq_false'] at checksum
                    exact ⟨header, decodes, not_not.mp whole, checksum, not_not.mp plain, counted,
                      Nat.pos_of_ne_zero nonempty, claims.1, claims.2, identified⟩
  · rintro ⟨header, decodes, whole, checksum, plain, counted, nonempty, hcount, hlast, producer⟩
    simp only [verify, decodes, whole, checksum, plain, counted, hcount, hlast, producer]
    simp [Nat.ne_of_gt nonempty]

/-- One whole uncompressed batch of an idempotent producer, by the format alone. -/
structure WellFormed (batch : List UInt8) (identity : ProducerIdentity) (records : Nat) : Prop where
  whole : ∃ header, decodeBatchHeader batch = .ok header ∧
    declaredEnd header = some batch.length ∧ compression header.attributes = .none ∧
    header.recordCount = records ∧ header.lastOffsetDelta = records - 1 ∧
    header.producerId = identity.id ∧ header.producerEpoch = identity.epoch ∧
    header.baseSequence = identity.sequence
  checksum : checksumHolds batch = true
  counted : countRecords batch = .ok records
  nonempty : 0 < records

theorem verify_eq_ok {batch : List UInt8} {identity : ProducerIdentity} {records : Nat} :
    verify batch = .ok ⟨records, some identity⟩ ↔ WellFormed batch identity records := by
  rw [verify_eq_ok_iff]
  constructor
  · rintro ⟨header, accepted⟩
    have producer := producerIdentity_eq_ok.mp accepted.producer
    exact ⟨⟨header, accepted.decodes, accepted.whole, accepted.plain, accepted.recordCount,
      accepted.lastOffsetDelta, producer⟩, accepted.checksum, accepted.counted, accepted.nonempty⟩
  · rintro ⟨⟨header, decodes, whole, plain, hcount, hlast, producer⟩, checksum, counted, nonempty⟩
    exact ⟨header, decodes, whole, checksum, plain, counted, nonempty, hcount, hlast,
      producerIdentity_eq_ok.mpr producer⟩

end Oqueue.Broker
