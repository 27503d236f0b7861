import Oqueue.Library.Reader

/-!
# The bounds-checked walk over a peer's bytes

Every read says where it stood and what was missing when it stops. Varints have
a word-at-a-time path for the inside of a buffer and a byte loop for its end.
-/

namespace Oqueue.Codec

open Bytes Reader

inductive DecodeError where
  | unexpectedEof (needed remaining at_ : Nat)
  | lengthOutOfBounds (length max at_ : Nat)
  | recordTooShort (length min at_ : Nat)
  | negativeLength (length : Int) (at_ : Nat)
  | varintTooLong (maxBytes at_ : Nat)
  | invalidUtf8 (at_ : Nat)
  | unexpectedNull (at_ : Nat)
  deriving DecidableEq, Repr

abbrev Decode (α : Type) := Read DecodeError α

/-- The next eight bytes as a little-endian word, without consuming them. -/
def peekWord (self : Cursor) : Option Nat :=
  let first8 := (self.buf.drop self.pos).take 8
  if first8.length = 8 then some (fromLeBytes first8) else none

def truncated (needed : Nat) (cur : Cursor) : DecodeError :=
  .unexpectedEof needed cur.remaining cur.pos

def take (n : Nat) : Decode (List UInt8) := Reader.take truncated n
def readI8 : Decode Int := signed truncated 1
def readI16 : Decode Int := signed truncated 2
def readI32 : Decode Int := signed truncated 4
def readI64 : Decode Int := signed truncated 8
def readU32 : Decode Nat := unsigned truncated 4

def maxVarintBytes : Nat := 5
def maxVarlongBytes : Nat := 10

/-- The number of varint bytes at the start of a word; nine when all eight continue. -/
def swarLen (word : Nat) : Nat :=
  let stops := (2 ^ 64 - 1 - word) &&& 0x8080808080808080
  if stops = 0 then 9 else (trailingZeros 64 stops >>> 3) + 1

/-- One more group of seven bits, at the width of the value. -/
def accumulate (width value index : Nat) (byte : UInt8) : Nat :=
  value ||| (((byte.toNat &&& 0x7F) <<< (index * 7 % width)) % 2 ^ width)

/-- The byte loop, with so many rounds left. -/
def readUnsignedVarintSlow (at_ : Nat) : Nat → Nat → Nat → Decode Nat
  | 0, _, _ => throw (.varintTooLong maxVarintBytes at_)
  | rounds + 1, index, value => do
    let byte := (← take 1).headD 0
    let value := accumulate 32 value index byte
    if byte.toNat &&& 0x80 = 0 then return value
    else readUnsignedVarintSlow at_ rounds (index + 1) value

def readUnsignedVarlongSlow (at_ : Nat) : Nat → Nat → Nat → Decode Nat
  | 0, _, _ => throw (.varintTooLong maxVarlongBytes at_)
  | rounds + 1, index, value => do
    let byte := (← take 1).headD 0
    let value := accumulate 64 value index byte
    if byte.toNat &&& 0x80 = 0 then return value
    else readUnsignedVarlongSlow at_ rounds (index + 1) value

def readUnsignedVarint : Decode Nat := do
  let cur ← get
  match peekWord cur with
  | some word =>
    let len := swarLen word
    if maxVarintBytes < len then throw (.varintTooLong maxVarintBytes cur.pos)
    let bytes ← take len
    return bytes.zipIdx.foldl (fun value item => accumulate 32 value item.2 item.1) 0
  | none => readUnsignedVarintSlow cur.pos maxVarintBytes 0 0

/-- Where all eight bytes of the word continue, the ninth and tenth come by the loop. -/
def readUnsignedVarlong : Decode Nat := do
  let cur ← get
  match peekWord cur with
  | some word =>
    let len := swarLen word
    if len ≤ 8 then
      let bytes ← take len
      return bytes.zipIdx.foldl (fun value item => accumulate 64 value item.2 item.1) 0
    else readUnsignedVarlongSlow cur.pos maxVarlongBytes 0 0
  | none => readUnsignedVarlongSlow cur.pos maxVarlongBytes 0 0

/-- Zigzag: the low bit is the sign, and an exclusive or with minus one complements. -/
def readVarint : Decode Int := do
  let raw ← readUnsignedVarint
  return if raw % 2 = 0 then (raw / 2 : Nat) else -(raw / 2 : Nat) - 1

def readVarlong : Decode Int := do
  let raw ← readUnsignedVarlong
  return if raw % 2 = 0 then (raw / 2 : Nat) else -(raw / 2 : Nat) - 1

theorem swarLen_pos (word : Nat) : 1 ≤ swarLen word := by
  unfold swarLen
  dsimp only
  split <;> omega

theorem consumes_take (n : Nat) : Consumes n (take n) := Consumes.take truncated n

theorem consumes_readI8 : Consumes 1 readI8 :=
  (Consumes.take truncated 1).bind fun _ => Consumes.pure _

theorem consumes_readUnsignedVarintSlow (at_ rounds index value : Nat) :
    Consumes 1 (readUnsignedVarintSlow at_ rounds index value) := by
  induction rounds generalizing index value with
  | zero => exact Consumes.throw _
  | succ rounds ih =>
    change Consumes (1 + 0) _
    refine (consumes_take 1).bind fun bytes => ?_
    apply Consumes.ite
    · exact Consumes.pure _
    · exact (ih _ _).weaken (Nat.zero_le _)

theorem consumes_readUnsignedVarlongSlow (at_ rounds index value : Nat) :
    Consumes 1 (readUnsignedVarlongSlow at_ rounds index value) := by
  induction rounds generalizing index value with
  | zero => exact Consumes.throw _
  | succ rounds ih =>
    change Consumes (1 + 0) _
    refine (consumes_take 1).bind fun bytes => ?_
    apply Consumes.ite
    · exact Consumes.pure _
    · exact (ih _ _).weaken (Nat.zero_le _)

theorem consumes_readVarint : Consumes 1 readVarint := by
  change Consumes (1 + 0) _
  refine Consumes.bind ?_ fun raw => Consumes.pure _
  apply Consumes.get
  intro cur
  cases peekWord cur with
  | none => exact consumes_readUnsignedVarintSlow _ _ _ _
  | some word =>
    apply Consumes.ite
    · exact Consumes.throw _
    · exact ((consumes_take _).bind fun bytes => Consumes.pure _).weaken (swarLen_pos word)

theorem consumes_readVarlong : Consumes 1 readVarlong := by
  change Consumes (1 + 0) _
  refine Consumes.bind ?_ fun raw => Consumes.pure _
  apply Consumes.get
  intro cur
  cases peekWord cur with
  | none => exact consumes_readUnsignedVarlongSlow _ _ _ _
  | some word =>
    apply Consumes.ite
    · exact ((consumes_take _).bind fun bytes => Consumes.pure _).weaken (swarLen_pos word)
    · exact consumes_readUnsignedVarlongSlow _ _ _ _

end Oqueue.Codec
