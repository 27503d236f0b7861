import Oqueue.Core.MetadataSegment

/-!
# A region of a bundled object

What one partition's bytes inside an object are protected by, and what a topic's
key domain requires of them. The domain comes from the topic's metadata; the
algorithm a footer names is part of the bytes anybody who can write them can edit.
-/

namespace Oqueue

open Segment

def maxKeyIdLen : Nat := 2 ^ 16 - 1

def isAsciiGraphic (byte : UInt8) : Bool := decide (0x21 ≤ byte) && decide (byte ≤ 0x7E)

/-- A key-encryption key's name: some printable ASCII, no longer than its length field. -/
structure KeyId where
  id : String
  nonempty : id.isEmpty = false
  short : (utf8 id).length ≤ maxKeyIdLen
  graphic : (utf8 id).all isAsciiGraphic = true
  deriving DecidableEq, Repr

def KeyId.new (id : String) : Except Error KeyId :=
  if nonempty : id.isEmpty = false then
    if short : (utf8 id).length ≤ maxKeyIdLen then
      if graphic : (utf8 id).all isAsciiGraphic = true then
        .ok ⟨id, nonempty, short, graphic⟩
      else .error (.invalidKeyId "contains a non-printable ASCII character")
    else .error (.invalidKeyId "exceeds the maximum encoded length")
  else .error .emptyKeyId

def KeyId.k : KeyId := ⟨"k", by decide, by decide, by decide⟩

theorem KeyId.new_eq_ok {id : String} {key : KeyId} : KeyId.new id = .ok key ↔ key.id = id := by
  obtain ⟨name, nonempty, short, graphic⟩ := key
  unfold KeyId.new
  constructor
  · intro h
    split at h
    · split at h
      · split at h
        · cases h
          rfl
        · cases h
      · cases h
    · cases h
  · rintro rfl
    rw [dif_pos nonempty, dif_pos short, dif_pos graphic]

def maxWrappedDekLen : Nat := 8192
def nonceBytes : Nat := 12

/-- How a region's bytes are protected. -/
inductive RegionAlg where
  | none
  | aes256Gcm
  deriving DecidableEq, Repr

namespace RegionAlg

def code : RegionAlg → Nat
  | none => 0
  | aes256Gcm => 1

/-- An unknown code is refused, never read as bytes stored as written. -/
def fromCode : Nat → Except Error RegionAlg
  | 0 => .ok none
  | 1 => .ok aes256Gcm
  | other => .error (.unknownRegionAlg other)

theorem fromCode_eq_ok {code : Nat} {alg : RegionAlg} : fromCode code = .ok alg ↔ code = alg.code := by
  match code with
  | 0 => cases alg <;> simp [fromCode, RegionAlg.code]
  | 1 => cases alg <;> simp [fromCode, RegionAlg.code]
  | code + 2 => cases alg <;> simp [fromCode, RegionAlg.code]

end RegionAlg

/-- What a sealed region carries beside its bytes. -/
structure RegionEnvelope where
  keyId : KeyId
  wrappedDek : List UInt8
  nonce : List UInt8
  wrapped : wrappedDek.length ≠ 0 ∧ wrappedDek.length ≤ maxWrappedDekLen
  whole : nonce.length = nonceBytes
  deriving DecidableEq, Repr

/-- A nonce is twelve bytes by its type; a key id is bounded by its own. -/
def RegionEnvelope.new (keyId : KeyId) (wrappedDek nonce : List UInt8)
    (whole : nonce.length = nonceBytes) : Except Error RegionEnvelope :=
  if wrapped : wrappedDek.length ≠ 0 ∧ wrappedDek.length ≤ maxWrappedDekLen then
    .ok ⟨keyId, wrappedDek, nonce, wrapped, whole⟩
  else .error (.regionEnvelopeLength "wrapped data encryption key" wrappedDek.length)

/-- One `(topic, partition)`'s region of a bundled object. -/
structure Region where
  topic : TopicId
  partition : Nat
  bytes : ByteRange
  recordCount : Nat
  alg : RegionAlg
  envelope : Option RegionEnvelope
  deriving DecidableEq, Repr

abbrev Region.key (self : Region) : PartitionKey := (self.topic, self.partition)

/-- A sealed region's bytes and the envelope that opens them. -/
structure SealedRegion where
  bytes : List UInt8
  alg : RegionAlg
  envelope : RegionEnvelope
  deriving DecidableEq, Repr

inductive KeyDomain where
  | defaultDomain
  | customer (keyId : KeyId)
  deriving DecidableEq, Repr

namespace KeyDomain

def requiresSealing : KeyDomain → Bool
  | defaultDomain => false
  | customer _ => true

def keyId : KeyDomain → Option KeyId
  | defaultDomain => none
  | customer keyId => some keyId

/-- Refuses a region whose footer does not match the topic's key domain. -/
def validateRegion (self : KeyDomain) (region : Region) : Except Error Unit :=
  if decide (region.alg ≠ .none) ≠ self.requiresSealing then
    .error (.regionKeyDomainMismatch self.requiresSealing)
  else if self.keyId.any fun expected =>
      (region.envelope.map RegionEnvelope.keyId).all fun keyId => decide (keyId ≠ expected) then
    .error (.regionKeyDomainMismatch self.requiresSealing)
  else .ok ()

/-- Refuses a re-sealed region whose sealedness or key is not the domain's. -/
def validateResealed (self : KeyDomain) (output : SealedRegion) : Except Error Unit :=
  if decide (output.alg ≠ .none) ≠ self.requiresSealing ∨
      (self.keyId.any fun expected => decide (output.envelope.keyId ≠ expected)) = true then
    .error (.regionKeyDomainMismatch self.requiresSealing)
  else .ok ()

/-- A region is served only as its topic's domain has it: plain in the default
domain, sealed under the domain's key in a customer's. -/
theorem validateRegion_eq_ok {self : KeyDomain} {region : Region} :
    self.validateRegion region = .ok () ↔
      match self with
      | defaultDomain => region.alg = .none
      | customer keyId => region.alg ≠ .none ∧ ∃ envelope, region.envelope = some envelope ∧
          envelope.keyId = keyId := by
  unfold validateRegion
  cases self with
  | defaultDomain =>
    by_cases plain : region.alg = .none
    · simp [requiresSealing, keyId, plain]
    · simp [requiresSealing, plain]
  | customer keyId =>
    by_cases plain : region.alg = .none
    · simp [requiresSealing, plain]
    · cases held : region.envelope with
      | none => simp [requiresSealing, KeyDomain.keyId, plain]
      | some envelope => simp [requiresSealing, KeyDomain.keyId, plain]

end KeyDomain

end Oqueue
