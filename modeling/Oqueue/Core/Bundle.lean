import Oqueue.Core.Region

/-!
# Bundled objects

What one flush writes: many partitions' regions in one object, and at its tail the
footer that says where each is. The footer is found from the object's end, out of any
tail wide enough to hold it.
-/

namespace Oqueue

open Bytes Checked Reader Format Segment

def bundleFormatVersion : Nat := 1

def trailerLen : Nat := 9

def maxTopicNameLen : Nat := 2 ^ 16 - 1

namespace Footer

def refusing (error : Error) : Put := fun _ => .error error

def putName (value : String) : Put := fun out =>
  if (utf8 value).length < 2 ^ 16 then
    append (toBeBytes 2 (utf8 value).length ++ utf8 value) out
  else .error .bundleTooLarge

def putLength (length : Nat) : Put := fun out =>
  if length < 2 ^ 32 then append (toBeBytes 4 length) out else .error .bundleTooLarge

/-- The envelope of a sealed region, and nothing for one stored as written. -/
def encodeEnvelope (region : Region) : Put :=
  match region.alg, region.envelope with
  | .none, none => pure ()
  | .none, some _ => refusing (.regionEnvelopeMismatch false)
  | .aes256Gcm, none => refusing (.regionEnvelopeMismatch true)
  | .aes256Gcm, some envelope => do
    putName envelope.keyId.id
    putLength envelope.wrappedDek.length
    append envelope.wrappedDek
    append envelope.nonce

def encodeBounds : ByteRange → Put
  | .full => refusing .unboundedRegion
  | .bounded offset length => do
    append (toBeBytes 8 offset)
    append (toBeBytes 8 length)

def encodeRegion (region : Region) : Put := do
  putName region.topic.name
  append (toBeBytes 4 region.partition)
  append (toBeBytes 4 region.recordCount)
  encodeBounds region.bytes
  append (toBeBytes 1 region.alg.code)
  encodeEnvelope region

def putRegions (regions : List Region) : Put := regions.forM encodeRegion

/-- Appends the footer and its trailer to what is written so far. -/
def encodeFooter (regions : List Region) (out : List UInt8) : Except Error (List UInt8) := do
  let ((), written) ← (putRegions regions).run out
  let footerLen := written.length - out.length
  if footerLen < 2 ^ 32 ∧ regions.length < 2 ^ 32 then
    return written ++ (toBeBytes 4 regions.length ++
      (toBeBytes 1 bundleFormatVersion ++ toBeBytes 4 footerLen))
  else .error .bundleTooLarge

end Footer

/-- The two refusals every region must pass, wherever it was pushed from. -/
def admissible (topic : TopicId) (recordCount : Nat) : Except Error Unit :=
  if maxTopicNameLen < (utf8 topic.name).length then .error .bundleTooLarge
  else if recordCount = 0 then .error .emptyRegion
  else .ok ()

/-- What one produce contributes besides its bytes. -/
structure PushedRecords where
  count : Nat
  producer : Option ProducerIdentity
  deriving DecidableEq, Repr

/-- Accumulates regions into the one object a flush writes. The producers stand
beside the regions: an object's bytes carry none. -/
structure BundleBuilder where
  payload : List UInt8 := []
  regions : List Region := []
  producers : List (Option ProducerIdentity) := []
  deriving DecidableEq, Repr

/-- A sealed bundle: the bytes to put, and the spans to commit. -/
structure SealedBundle where
  payload : List UInt8
  regions : List Region
  spans : List CommittedSpan
  deriving DecidableEq, Repr

def committedSpans (regions : List Region) (producers : List (Option ProducerIdentity)) :
    List CommittedSpan :=
  List.zipWith (fun region producer =>
    ⟨region.topic, region.partition, region.recordCount, region.bytes, producer⟩) regions producers

namespace BundleBuilder

/-- Appends one partition's records as written. -/
def push (self : BundleBuilder) (topic : TopicId) (partition : Nat) (pushed : PushedRecords)
    (records : List UInt8) : Except Error BundleBuilder := do
  let () ← admissible topic pushed.count
  let bytes ← ByteRange.new self.payload.length records.length
  return {
    payload := self.payload ++ records
    regions := self.regions ++ [⟨topic, partition, bytes, pushed.count, .none, none⟩]
    producers := self.producers ++ [pushed.producer] }

/-- Appends one partition's sealed records, with the envelope that opens them. -/
def pushSealed (self : BundleBuilder) (topic : TopicId) (partition : Nat) (pushed : PushedRecords)
    (region : SealedRegion) : Except Error BundleBuilder := do
  let () ← admissible topic pushed.count
  if region.alg = .none then .error .regionNotEncrypted
  else
    let bytes ← ByteRange.new self.payload.length region.bytes.length
    return {
      payload := self.payload ++ region.bytes
      regions := self.regions ++
        [⟨topic, partition, bytes, pushed.count, region.alg, some region.envelope⟩]
      producers := self.producers ++ [pushed.producer] }

/-- Records a region whose bytes go somewhere else. -/
def pushStreamed (self : BundleBuilder) (topic : TopicId) (partition : Nat) (pushed : PushedRecords)
    (offset length : Nat) : Except Error BundleBuilder := do
  let () ← admissible topic pushed.count
  let bytes ← ByteRange.new offset length
  return { self with
    regions := self.regions ++ [⟨topic, partition, bytes, pushed.count, .none, none⟩]
    producers := self.producers ++ [pushed.producer] }

/-- The encoded footer and the spans, for a payload written elsewhere. -/
def intoFooter (self : BundleBuilder) : Except Error (List UInt8 × List CommittedSpan) :=
  if self.regions.isEmpty then .error .emptyBundle
  else do
    let footer ← Footer.encodeFooter self.regions []
    return (footer, committedSpans self.regions self.producers)

end BundleBuilder

/-- The bytes to put, and the spans to commit, from one call. -/
def BundleBuilder.seal (self : BundleBuilder) : Except Error SealedBundle :=
  if self.regions.isEmpty then .error .emptyBundle
  else do
    let payload ← Footer.encodeFooter self.regions self.payload
    return ⟨payload, self.regions, committedSpans self.regions self.producers⟩

namespace Footer

def malformed (_ : Nat) (cur : Cursor) : Error := .malformedBundleFooter cur.pos

/-- So many bytes as UTF-8, or the offset the string started at. -/
def readText (len : Nat) : Read Error String := do
  let cur ← get
  let raw ← take malformed len
  match String.fromUTF8? ⟨raw.toArray⟩ with
  | some text => return text
  | none => throw (.malformedBundleFooter cur.pos)

def readEnvelope : Read Error RegionEnvelope := do
  let keyLen ← unsigned malformed 2
  let cur ← get
  let name ← readText keyLen
  let keyId ← liftM ((KeyId.new name).mapError fun _ => Error.malformedBundleFooter cur.pos)
  let wrappedLen ← unsigned malformed 4
  if wrappedLen = 0 ∨ maxWrappedDekLen < wrappedLen then
    throw (.malformedBundleFooter (← get).pos)
  else
    let wrapped ← take malformed wrappedLen
    let nonce ← take malformed nonceBytes
    let cur ← get
    -- the read answers with exactly so many bytes
    if whole : nonce.length = nonceBytes then
      liftM ((RegionEnvelope.new keyId wrapped nonce whole).mapError
        fun _ => Error.malformedBundleFooter cur.pos)
    else throw (.malformedBundleFooter cur.pos)

/-- The algorithm code alone says whether an envelope follows. -/
def readSealing (alg : RegionAlg) : Read Error (Option RegionEnvelope) :=
  match alg with
  | .none => return none
  | .aes256Gcm => do return some (← readEnvelope)

def readRegion : Read Error Region := do
  let nameLen ← unsigned malformed 2
  let name ← readText nameLen
  let topic ← liftM (TopicId.new name)
  let index ← unsigned malformed 4
  let cur ← get
  let partition ← liftM (if index < 2 ^ 31 then PartitionId.new index
    else .error (.malformedBundleFooter cur.pos))
  let recordCount ← unsigned malformed 4
  let offset ← unsigned malformed 8
  let length ← unsigned malformed 8
  let bytes ← liftM (ByteRange.new offset length)
  let code ← unsigned malformed 1
  let alg ← liftM (RegionAlg.fromCode code)
  let envelope ← readSealing alg
  return ⟨topic, partition, bytes, recordCount, alg, envelope⟩

/-- Each region begins where the last ended, the last ends where the payload does,
and none claims no records. -/
def checkRegions (payloadEnd : Nat) : List Region → Nat → Nat → Except Error Unit
  | [], index, nextFree =>
    if nextFree ≠ payloadEnd then .error (.malformedBundleFooter index) else .ok ()
  | region :: rest, index, nextFree =>
    match region.bytes with
    | .full => .error (.malformedBundleFooter index)
    | .bounded offset length =>
      if region.recordCount = 0 then .error (.malformedBundleFooter index)
      else if u64Max < offset + length then .error (.malformedBundleFooter index)
      else if offset ≠ nextFree ∨ payloadEnd < offset + length then
        .error (.malformedBundleFooter index)
      else checkRegions payloadEnd rest (index + 1) (offset + length)

/-- A tail too narrow to hold the footer, or an object too small to have one. -/
def shortTailOrCorrupt (got needed objectSize : Nat) : Error :=
  if objectSize < needed then .malformedBundleFooter 0 else .bundleTailTooShort got needed

end Footer

open Footer

/-- Reads a bundle's footer back out of the object's tail. -/
def parseFooter (tail : List UInt8) (objectSize : Nat) : Except Error (List Region) :=
  let got := tail.length
  if got < trailerLen then .error (shortTailOrCorrupt got trailerLen objectSize)
  else
    let trailerAt := got - trailerLen
    let trailer := tail.drop trailerAt
    let count := fromBeBytes (trailer.take 4)
    let version := fromBeBytes ((trailer.drop 4).take 1)
    let footerLen := fromBeBytes (trailer.drop 5)
    if version ≠ bundleFormatVersion then .error (.unknownBundleFormat version)
    else if count = 0 then .error .emptyBundle
    else if trailerAt < footerLen then
      .error (shortTailOrCorrupt got (footerLen + trailerLen) objectSize)
    else do
      let (regions, cur) ← (readMany readRegion count).run
        { buf := (tail.take trailerAt).drop (trailerAt - footerLen) }
      if cur.pos ≠ footerLen then .error (.malformedBundleFooter cur.pos)
      else if objectSize < footerLen + trailerLen then .error (.malformedBundleFooter 0)
      else
        let () ← checkRegions (objectSize - (footerLen + trailerLen)) regions 0 0
        return regions

end Oqueue
