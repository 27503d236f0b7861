import Oqueue.Codec.Wire
import Oqueue.Library.Checked

/-!
# The record batch, v2

The fixed header, the checksum's coverage, the offset stamp, and the walk that
counts a batch's records without decoding one.
-/

namespace Oqueue.Codec

open Bytes Reader

def batchHeaderLen : Nat := 61
def crcCoverageStart : Nat := 21
def magicV2 : Int := 2
def minRecordBodyLen : Nat := 6

inductive BatchError where
  | decode (source : DecodeError)
  | wrongMagic (magic : Int)
  deriving DecidableEq, Repr

inductive Compression where
  | none
  | gzip
  | snappy
  | lz4
  | zstd
  | unknown (bits : Nat)
  deriving DecidableEq, Repr

/-- The codec named by the low three bits of the attributes. -/
def compression (attributes : Int) : Compression :=
  match castUnsigned 16 attributes &&& 7 with
  | 0 => .none
  | 1 => .gzip
  | 2 => .snappy
  | 3 => .lz4
  | 4 => .zstd
  | other => .unknown other

structure BatchHeader where
  baseOffset : Int
  batchLength : Int
  partitionLeaderEpoch : Int
  crc : Nat
  attributes : Int
  lastOffsetDelta : Int
  baseTimestamp : Int
  maxTimestamp : Int
  producerId : Int
  producerEpoch : Int
  baseSequence : Int
  recordCount : Int
  deriving DecidableEq, Repr

/-- The fields up to the magic, which decides whether the rest mean anything. -/
def readFront : Decode (Int × Int × Int × Int) := do
  let baseOffset ← readI64
  let batchLength ← readI32
  let partitionLeaderEpoch ← readI32
  let magic ← readI8
  return (baseOffset, batchLength, partitionLeaderEpoch, magic)

def readHeader (front : Int × Int × Int × Int) : Decode BatchHeader := do
  return {
    baseOffset := front.1
    batchLength := front.2.1
    partitionLeaderEpoch := front.2.2.1
    crc := ← readU32
    attributes := ← readI16
    lastOffsetDelta := ← readI32
    baseTimestamp := ← readI64
    maxTimestamp := ← readI64
    producerId := ← readI64
    producerEpoch := ← readI16
    baseSequence := ← readI32
    recordCount := ← readI32 }

def decodeBatchHeader (batch : List UInt8) : Except BatchError BatchHeader := do
  let (front, cur) ← (readFront.run { buf := batch }).mapError .decode
  if front.2.2.2 ≠ magicV2 then throw (.wrongMagic front.2.2.2)
  else
    let (header, _) ← ((readHeader front).run cur).mapError .decode
    return header

/-- The fixed bytes of a header, magic v2, checksum as given. -/
def encodeBatchHeader (header : BatchHeader) : List UInt8 :=
  toBeBytes 8 (castUnsigned 64 header.baseOffset) ++ toBeBytes 4 (castUnsigned 32 header.batchLength) ++
    toBeBytes 4 (castUnsigned 32 header.partitionLeaderEpoch) ++ toBeBytes 1 (castUnsigned 8 magicV2) ++
    toBeBytes 4 header.crc ++ toBeBytes 2 (castUnsigned 16 header.attributes) ++
    toBeBytes 4 (castUnsigned 32 header.lastOffsetDelta) ++
    toBeBytes 8 (castUnsigned 64 header.baseTimestamp) ++
    toBeBytes 8 (castUnsigned 64 header.maxTimestamp) ++
    toBeBytes 8 (castUnsigned 64 header.producerId) ++
    toBeBytes 2 (castUnsigned 16 header.producerEpoch) ++
    toBeBytes 4 (castUnsigned 32 header.baseSequence) ++
    toBeBytes 4 (castUnsigned 32 header.recordCount)

def headerOf (batch : List UInt8) : BatchHeader :=
  let signed (start width : Nat) := castSigned (8 * width) (fromBeBytes (field batch start width))
  { baseOffset           := signed 0 8
    batchLength          := signed 8 4
    partitionLeaderEpoch := signed 12 4
    crc                  := fromBeBytes (field batch 17 4)
    attributes           := signed 21 2
    lastOffsetDelta      := signed 23 4
    baseTimestamp        := signed 27 8
    maxTimestamp         := signed 35 8
    producerId           := signed 43 8
    producerEpoch        := signed 51 2
    baseSequence         := signed 53 4
    recordCount          := signed 57 4 }

theorem readFront_eq_ok {batch : List UInt8} {out : (Int × Int × Int × Int) × Cursor} :
    readFront.run { buf := batch } = .ok out ↔ 17 ≤ batch.length ∧
      out = (((headerOf batch).baseOffset, (headerOf batch).batchLength,
        (headerOf batch).partitionLeaderEpoch, castSigned 8 (fromBeBytes (field batch 16 1))),
          ⟨batch, 17⟩) := by
  rw [readFront, readI64, readI32, readI8]
  rw [signed_bind_eq_ok, signed_bind_eq_ok, signed_bind_eq_ok, signed_bind_eq_ok]
  simp only [Cursor.remaining, StateT.run_pure]
  constructor
  · rintro ⟨_, _, _, long, ran⟩
    cases ran
    exact ⟨by omega, rfl⟩
  · rintro ⟨long, rfl⟩
    exact ⟨by omega, by omega, by omega, by omega, rfl⟩

theorem readHeader_eq_ok {batch : List UInt8} {front : Int × Int × Int × Int}
    {out : BatchHeader × Cursor} : (readHeader front).run ⟨batch, 17⟩ = .ok out ↔
      batchHeaderLen ≤ batch.length ∧ out = ({ headerOf batch with
        baseOffset := front.1, batchLength := front.2.1, partitionLeaderEpoch := front.2.2.1 },
          ⟨batch, batchHeaderLen⟩) := by
  rw [readHeader, readI64, readI32, readI16, readU32]
  rw [unsigned_bind_eq_ok, signed_bind_eq_ok, signed_bind_eq_ok, signed_bind_eq_ok,
    signed_bind_eq_ok, signed_bind_eq_ok, signed_bind_eq_ok, signed_bind_eq_ok, signed_bind_eq_ok]
  simp only [Cursor.remaining, StateT.run_pure, batchHeaderLen]
  constructor
  · rintro ⟨_, _, _, _, _, _, _, _, long, ran⟩
    cases ran
    exact ⟨by omega, rfl⟩
  · rintro ⟨long, rfl⟩
    refine ⟨?_, ?_, ?_, ?_, ?_, ?_, ?_, ?_, ?_, rfl⟩ <;> omega

/-- The batches with a header are those long enough and of the second format. -/
theorem decodeBatchHeader_eq_ok {batch : List UInt8} {header : BatchHeader} :
    decodeBatchHeader batch = .ok header ↔ batchHeaderLen ≤ batch.length ∧
      castSigned 8 (fromBeBytes (field batch 16 1)) = magicV2 ∧ header = headerOf batch := by
  constructor
  · intro ran
    obtain ⟨out, first, ran⟩ := Checked.bind_eq_ok.mp ran
    obtain ⟨-, rfl⟩ := readFront_eq_ok.mp ((Checked.accepts_mapError _).mp first)
    dsimp only at ran
    split at ran
    · cases ran
    rename_i magic
    obtain ⟨out, rest, ran⟩ := Checked.bind_eq_ok.mp ran
    obtain ⟨long, rfl⟩ := readHeader_eq_ok.mp ((Checked.accepts_mapError _).mp rest)
    cases ran
    exact ⟨long, not_not.mp magic, rfl⟩
  · rintro ⟨long, magic, rfl⟩
    have first := readFront_eq_ok.mpr ⟨(by decide : 17 ≤ batchHeaderLen).trans long, rfl⟩
    refine Checked.bind_eq_ok.mpr ⟨_, (Checked.accepts_mapError _).mpr first, ?_⟩
    dsimp only
    rw [if_neg (not_not.mpr magic)]
    rw [readHeader_eq_ok.mpr ⟨long, rfl⟩]
    rfl

theorem decodeBatchHeader_recordCount_lt {batch : List UInt8} {header : BatchHeader}
    (h : decodeBatchHeader batch = .ok header) : header.recordCount < 2 ^ 31 := by
  obtain ⟨-, -, rfl⟩ := decodeBatchHeader_eq_ok.mp h
  exact castSigned_lt 32 _

theorem decodeBatchHeader_batchLength_lt {batch : List UInt8} {header : BatchHeader}
    (h : decodeBatchHeader batch = .ok header) : header.batchLength < 2 ^ 31 := by
  obtain ⟨-, -, rfl⟩ := decodeBatchHeader_eq_ok.mp h
  exact castSigned_lt 32 _

/-- Where a batch ends by its own header; a negative length declares nothing. -/
def declaredEnd (header : BatchHeader) : Option Nat :=
  if header.batchLength < 0 then none else some (header.batchLength.toNat + 12)

/-- The bytes the checksum covers, after checking that they are there. -/
def crcCoverage (batch : List UInt8) : Except BatchError (List UInt8) := do
  let header ← decodeBatchHeader batch
  match declaredEnd header with
  | none => throw (.decode (.lengthOutOfBounds header.batchLength.natAbs (2 ^ 64 - 1) 8))
  | some stop =>
    if batch.length < stop ∨ stop < batchHeaderLen then
      throw (.decode (.unexpectedEof stop batch.length 8))
    else return (batch.take stop).drop crcCoverageStart

def storedCrc (batch : List UInt8) : Except BatchError Nat := do
  return (← decodeBatchHeader batch).crc

/-- Assigns the base offset and leader epoch in place; a batch that does not
parse is not rewritten. -/
def rewriteBaseOffset (batch : List UInt8) (baseOffset partitionLeaderEpoch : Int) :
    Except BatchError (List UInt8) := do
  let _ ← decodeBatchHeader batch
  return toBeBytes 8 (castUnsigned 64 baseOffset) ++ ((batch.take 12).drop 8 ++
    (toBeBytes 4 (castUnsigned 32 partitionLeaderEpoch) ++ batch.drop 16))

theorem rewriteBaseOffset_ne_nil {batch stamped : List UInt8} {baseOffset epoch : Int}
    (h : rewriteBaseOffset batch baseOffset epoch = .ok stamped) : stamped ≠ [] := by
  unfold rewriteBaseOffset at h
  cases hheader : decodeBatchHeader batch with
  | error e => simp [hheader, bind, Except.bind] at h
  | ok header =>
    rw [hheader] at h
    cases h
    intro empty
    have := congrArg List.length empty
    simp at this

/-- Reads a length, skips that many bytes, and counts; every round consumes at
least the length it read, so as many rounds as bytes are enough. -/
def countLoop (total : Nat) : Nat → Nat → Decode Nat
  | 0, counted => return counted
  | rounds + 1, counted => do
    let cur ← get
    if cur.remaining = 0 then return counted
    let length ← readVarint
    if length < 0 then
      throw (.lengthOutOfBounds length.natAbs total (batchHeaderLen + cur.pos))
    if length < minRecordBodyLen then
      throw (.recordTooShort length.toNat minRecordBodyLen (batchHeaderLen + cur.pos))
    let _ ← take length.toNat
    countLoop total rounds (counted + 1)

/-- Counts the records a batch actually holds, by walking them. -/
def countRecords (batch : List UInt8) : Except BatchError Nat := do
  let coverage ← crcCoverage batch
  let records := coverage.drop (batchHeaderLen - crcCoverageStart)
  let (counted, _) ← ((countLoop records.length records.length 0).run { buf := records }).mapError
    .decode
  if counted < 2 ^ 32 then return counted
  else throw (.decode (.lengthOutOfBounds counted (2 ^ 32 - 1) batchHeaderLen))

theorem length_of_crcCoverage {batch coverage : List UInt8} (h : crcCoverage batch = .ok coverage) :
    coverage.length < 2 ^ 31 + 12 := by
  obtain ⟨header, decodes, h⟩ := Checked.bind_eq_ok.mp h
  have small := decodeBatchHeader_batchLength_lt decodes
  dsimp only [declaredEnd] at h
  split at h
  · cases h
  · rename_i stop declared
    split at h
    · cases h
    · cases h
      split at declared
      · cases declared
      · cases declared
        rw [List.length_drop, List.length_take]
        omega

/-- The same bytes but for the base offset and the leader epoch. -/
structure Restamped (batch stamped : List UInt8) : Prop where
  length : stamped.length = batch.length
  middle : (stamped.drop 8).take 4 = (batch.drop 8).take 4
  behind : stamped.drop 16 = batch.drop 16

theorem restamped_of_rewrite {batch stamped : List UInt8} {baseOffset partitionLeaderEpoch : Int}
    (h : rewriteBaseOffset batch baseOffset partitionLeaderEpoch = .ok stamped) :
    Restamped batch stamped := by
  obtain ⟨header, decodes, h⟩ := Checked.bind_eq_ok.mp h
  obtain ⟨long, -, -⟩ := decodeBatchHeader_eq_ok.mp decodes
  rw [batchHeaderLen] at long
  cases h
  have four : ((batch.take 12).drop 8).length = 4 := by
    rw [List.length_drop, List.length_take]
    omega
  refine ⟨?_, ?_, ?_⟩
  · simp only [List.length_append, length_toBeBytes, four, List.length_drop]
    omega
  · rw [List.drop_left' (length_toBeBytes 8 _), List.take_left' four, List.drop_take]
  · rw [← List.append_assoc, ← List.append_assoc]
    apply List.drop_left'
    simp only [List.length_append, length_toBeBytes, four]

namespace Restamped

variable {batch stamped : List UInt8} (restamped : Restamped batch stamped)
include restamped

theorem field {start : Nat} (behind : 16 ≤ start) (width : Nat) :
    Reader.field stamped start width = Reader.field batch start width := by
  obtain ⟨more, rfl⟩ := Nat.exists_eq_add_of_le behind
  rw [Reader.field, Reader.field, ← List.drop_drop, ← List.drop_drop, restamped.behind]

theorem getElem? {i : Nat} (outside : 8 ≤ i ∧ i < 12 ∨ 16 ≤ i) : stamped[i]? = batch[i]? := by
  rcases outside with ⟨low, high⟩ | behind
  · obtain ⟨j, rfl⟩ := Nat.exists_eq_add_of_le low
    have lt : j < 4 := by omega
    have same := congrArg (·[j]?) restamped.middle
    simpa only [List.getElem?_take_of_lt lt, List.getElem?_drop] using same
  · obtain ⟨j, rfl⟩ := Nat.exists_eq_add_of_le behind
    rw [← List.getElem?_drop, restamped.behind, List.getElem?_drop]

theorem headerOf : headerOf stamped = { headerOf batch with
    baseOffset := (headerOf stamped).baseOffset
    partitionLeaderEpoch := (headerOf stamped).partitionLeaderEpoch } := by
  have length : Reader.field stamped 8 4 = Reader.field batch 8 4 := restamped.middle
  simp only [Codec.headerOf, length, restamped.field (by decide : 16 ≤ 17),
    restamped.field (by decide : 16 ≤ 21), restamped.field (by decide : 16 ≤ 23),
    restamped.field (by decide : 16 ≤ 27), restamped.field (by decide : 16 ≤ 35),
    restamped.field (by decide : 16 ≤ 43), restamped.field (by decide : 16 ≤ 51),
    restamped.field (by decide : 16 ≤ 53), restamped.field (by decide : 16 ≤ 57)]

theorem decodeBatchHeader {header : BatchHeader} (h : decodeBatchHeader batch = .ok header) :
    ∃ baseOffset partitionLeaderEpoch,
      decodeBatchHeader stamped = .ok { header with baseOffset, partitionLeaderEpoch } := by
  obtain ⟨long, magic, rfl⟩ := decodeBatchHeader_eq_ok.mp h
  refine ⟨_, _, decodeBatchHeader_eq_ok.mpr ⟨?_, ?_, restamped.headerOf.symm⟩⟩
  · rw [restamped.length]
    exact long
  · rw [restamped.field (Nat.le_refl 16)]
    exact magic

theorem storedCrc {header : BatchHeader} (h : Codec.decodeBatchHeader batch = .ok header) :
    storedCrc stamped = storedCrc batch := by
  obtain ⟨_, _, decodes⟩ := restamped.decodeBatchHeader h
  rw [Codec.storedCrc, Codec.storedCrc, h, decodes]
  rfl

theorem crcCoverage {header : BatchHeader} (h : Codec.decodeBatchHeader batch = .ok header) :
    crcCoverage stamped = crcCoverage batch := by
  obtain ⟨_, _, decodes⟩ := restamped.decodeBatchHeader h
  have covered (stop : Nat) :
      (stamped.take stop).drop crcCoverageStart = (batch.take stop).drop crcCoverageStart := by
    have same := restamped.field (by decide : 16 ≤ crcCoverageStart) (stop - crcCoverageStart)
    rw [List.drop_take, List.drop_take]
    exact same
  rw [Codec.crcCoverage, Codec.crcCoverage, h, decodes]
  simp only [Checked.bind_ok, declaredEnd, restamped.length, covered]

theorem countRecords {header : BatchHeader} (h : Codec.decodeBatchHeader batch = .ok header) :
    countRecords stamped = countRecords batch := by
  rw [Codec.countRecords, Codec.countRecords, restamped.crcCoverage h]

end Restamped

def crc32cByte (crc : Nat) (byte : UInt8) : Nat :=
  (List.range 8).foldl (fun crc _ => if crc % 2 = 1 then (crc >>> 1) ^^^ 0x82F63B78 else crc >>> 1)
    (crc ^^^ byte.toNat)

def crc32c (data : List UInt8) : Nat := data.foldl crc32cByte 0xFFFFFFFF ^^^ 0xFFFFFFFF

example : crc32c [0x31, 0x32, 0x33, 0x34, 0x35, 0x36, 0x37, 0x38, 0x39] = 0xE3069283 := by
  decide +kernel

end Oqueue.Codec
