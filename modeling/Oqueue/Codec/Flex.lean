import Oqueue.Codec.Varint
import Oqueue.Core.SegmentFormat

/-!
# Strings, bytes, array lengths and tagged fields

Each in two forms. The compact one writes a length as a varint, one more than it is, so
that zero is left for null; the legacy one writes it at a fixed width, where minus one is
null. A length that its width cannot hold saturates.
-/

namespace Oqueue.Codec

open Bytes Reader
open Segment (utf8 fromUTF8?_eq_some)

def i16Max : Nat := 2 ^ 15 - 1
def i32Max : Nat := 2 ^ 31 - 1

def putI16 (v : Int) : List UInt8 := toBeBytes 2 (castUnsigned 16 v)
def putI32 (v : Int) : List UInt8 := toBeBytes 4 (castUnsigned 32 v)

def putLegacyNullableString : Option String → List UInt8
  | none => putI16 (-1)
  | some s => putI16 (min (utf8 s).length i16Max : Nat) ++ utf8 s

/-- In a build with assertions, a length from `u32Max` on stops here instead. -/
def putCompactLen : Option Nat → List UInt8
  | none => putUnsignedVarint 0
  | some len => putUnsignedVarint (min (len + 1) u32Max)

def putCompactNullableString : Option String → List UInt8
  | none => putCompactLen none
  | some s => putCompactLen (some (utf8 s).length) ++ utf8 s

def putCompactNullableBytes : Option (List UInt8) → List UInt8
  | none => putCompactLen none
  | some b => putCompactLen (some b.length) ++ b

def putCompactArrayLen (count : Option Nat) : List UInt8 := putCompactLen count

def putBytes (flexible : Bool) (value : List UInt8) : List UInt8 :=
  if flexible then putCompactNullableBytes (some value)
  else putI32 (min value.length i32Max : Nat) ++ value

def putString (flexible : Bool) (value : String) : List UInt8 :=
  if flexible then putCompactNullableString (some value) else putLegacyNullableString (some value)

def putNullableString (flexible : Bool) (value : Option String) : List UInt8 :=
  if flexible then putCompactNullableString value else putLegacyNullableString value

def putArrayLen (flexible : Bool) (count : Option Nat) : List UInt8 :=
  if flexible then putCompactArrayLen count
  else match count with
    | none => putI32 (-1)
    | some n => putI32 (min n i32Max : Nat)

/-- A tagged field whose tag is not recognised, as it was received. -/
structure RawTaggedField where
  tag : UInt32
  data : List UInt8
  deriving DecidableEq, Repr

structure TaggedFields where
  unknown : List RawTaggedField
  deriving DecidableEq, Repr

def putTaggedField (field : RawTaggedField) : List UInt8 :=
  putUnsignedVarint field.tag.toNat ++
    (putUnsignedVarint (min field.data.length u32Max) ++ field.data)

def putTaggedFields (fields : TaggedFields) : List UInt8 :=
  putUnsignedVarint (min fields.unknown.length u32Max) ++ fields.unknown.flatMap putTaggedField

/-- As many bytes as a `u32` counts, at the most. -/
def RawTaggedField.Counted (self : RawTaggedField) : Prop := self.data.length ≤ u32Max

structure TaggedFields.Counted (tagged : TaggedFields) : Prop where
  fields : tagged.unknown.length ≤ u32Max
  each : ∀ field ∈ tagged.unknown, field.Counted

namespace Halting

def signed (width : Nat) : Halting Int := do
  return castSigned (8 * width) (fromBeBytes (← take width))

def readI16 : Halting Int := signed 2
def readI32 : Halting Int := signed 4

/-- So many bytes as text, or the place they start at. -/
def readText (len : Nat) : Halting String := do
  let cur ← get
  let bytes ← take len
  match String.fromUTF8? ⟨bytes.toArray⟩ with
  | some text => return text
  | none => throw (.invalidUtf8 cur.pos)

def readLengthPrefixed (max : Nat) : Halting (List UInt8) := do
  let cur ← get
  let length ← readI32
  if length < 0 then throw (.negativeLength length cur.pos)
  else if max < length.toNat then throw (.lengthOutOfBounds length.toNat max cur.pos)
  else take length.toNat

def bounded (count at_ : Nat) : Halting Nat := do
  let cur ← get
  if cur.remaining < count then throw (.lengthOutOfBounds count cur.remaining at_)
  else return count

def readLegacyArrayLen : Halting (Option Nat) := do
  let cur ← get
  let count ← readI32
  if count = -1 then return none
  else if count < 0 then throw (.negativeLength count cur.pos)
  else return some (← bounded count.toNat cur.pos)

def readLegacyNullableString : Halting (Option String) := do
  let cur ← get
  let length ← readI16
  if length = -1 then return none
  else if length < 0 then throw (.negativeLength length cur.pos)
  else return some (← readText length.toNat)

def readCompactLen : Halting (Option Nat) := do
  let cur ← get
  let raw ← readUnsignedVarint
  if raw = 0 then return none else return some (← bounded (raw - 1) cur.pos)

def readCompactNullableString : Halting (Option String) := do
  match ← readCompactLen with
  | none => return none
  | some len => return some (← readText len)

def readCompactNullableBytes : Halting (Option (List UInt8)) := do
  match ← readCompactLen with
  | none => return none
  | some len => return some (← take len)

def readCompactArrayLen : Halting (Option Nat) := readCompactLen

def nonNull {α : Type} (read : Halting (Option α)) : Halting α := do
  let cur ← get
  match ← read with
  | none => throw (.unexpectedNull cur.pos)
  | some value => return value

def readNullableString (flexible : Bool) : Halting (Option String) :=
  if flexible then readCompactNullableString else readLegacyNullableString

def readString (flexible : Bool) : Halting String := nonNull (readNullableString flexible)

def readBytes (flexible : Bool) : Halting (List UInt8) :=
  if flexible then nonNull readCompactNullableBytes
  else do readLengthPrefixed (← get).remaining

def readArrayLen (flexible : Bool) : Halting (Option Nat) :=
  if flexible then readCompactArrayLen else readLegacyArrayLen

def readTaggedField : Halting RawTaggedField := do
  let tag ← readUnsignedVarint
  let cur ← get
  let size ← readUnsignedVarint
  let data ← take (← bounded size cur.pos)
  return { tag := .ofNat tag, data }

def readTaggedFieldsFrom : Nat → Halting (List RawTaggedField)
  | 0 => return []
  | count + 1 => do
    let field ← readTaggedField
    return field :: (← readTaggedFieldsFrom count)

def readTaggedFields : Halting TaggedFields := do
  let count ← readUnsignedVarint
  let cur ← get
  let count ← bounded count cur.pos
  return { unknown := ← readTaggedFieldsFrom count }

open Reader.Halting

variable {least : Nat}

theorem yields_unsignedVarint {v : Nat} (narrow : v ≤ u32Max) :
    Yields least readUnsignedVarint (putUnsignedVarint v) v := by
  intro cur after _ starts
  unfold putUnsignedVarint at *
  rw [putGroups_eq] at *
  exact readUnsignedVarint_encode starts (Nat.lt_of_le_of_lt narrow (by decide))

theorem yields_signed {width : Nat} (some_ : 0 < 8 * width) {v : Int}
    (low : -(2 ^ (8 * width - 1)) ≤ v) (high : v < 2 ^ (8 * width - 1)) :
    Yields least (signed width) (toBeBytes width (castUnsigned (8 * width) v)) v := by
  have length : (toBeBytes width (castUnsigned (8 * width) v)).length = width :=
    length_toBeBytes ..
  have taken : Yields least (take (toBeBytes width (castUnsigned (8 * width) v)).length)
      (toBeBytes width (castUnsigned (8 * width) v))
      (toBeBytes width (castUnsigned (8 * width) v)) := Yields.take truncated _
  rw [length] at taken
  apply taken.map
  have below : castUnsigned (8 * width) v < 2 ^ (8 * width) := by
    unfold castUnsigned
    have positive : (0 : Int) < 2 ^ (8 * width) := by positivity
    have := Int.emod_lt_of_pos v positive
    have := Int.emod_nonneg v positive.ne'
    zify
    rw [Int.toNat_of_nonneg this]
    omega
  have whole : fromBeBytes (toBeBytes width (castUnsigned (8 * width) v)) =
      castUnsigned (8 * width) v := by
    have power : 256 ^ width = 2 ^ (8 * width) := by
      rw [Nat.pow_mul]
    rw [fromBeBytes_toBeBytes, power, Nat.mod_eq_of_lt below]
  rw [whole, castSigned_castUnsigned some_ low high]

theorem yields_i16 {v : Int} (low : -2 ^ 15 ≤ v) (high : v < 2 ^ 15) :
    Yields least readI16 (putI16 v) v :=
  yields_signed (by decide) low high

theorem yields_i32 {v : Int} (low : -2 ^ 31 ≤ v) (high : v < 2 ^ 31) :
    Yields least readI32 (putI32 v) v :=
  yields_signed (by decide) low high

theorem yields_bounded {count at_ : Nat} (room : count ≤ least) :
    Yields least (bounded count at_) [] count := by
  intro cur after enough starts
  have fits : ¬ cur.remaining < count := by
    rw [Cursor.remaining_eq, starts]
    exact Nat.not_lt.mpr (Nat.le_trans room enough)
  exact congrFun (if_neg fits) cur

theorem yields_text (text : String) :
    Yields least (readText (utf8 text).length) (utf8 text) text := by
  apply Yields.get
  intro cur
  apply (Yields.take truncated (utf8 text)).map
  rw [fromUTF8?_eq_some.mpr rfl]

theorem yields_compactLen {len : Nat} (small : len < u32Max) (room : len ≤ least) :
    Yields least readCompactLen (putCompactLen (some len)) (some len) := by
  have fits : min (len + 1) u32Max = len + 1 := Nat.min_eq_left small
  unfold putCompactLen
  dsimp only
  rw [fits, ← List.append_nil (putUnsignedVarint (len + 1))]
  apply Yields.get
  intro cur
  apply (yields_unsignedVarint small).bind _ (Nat.zero_le _)
  rw [if_neg (Nat.succ_ne_zero len)]
  exact (yields_bounded room).map rfl

theorem yields_compactLen_none : Yields least readCompactLen (putCompactLen none) none := by
  apply Yields.get
  intro cur
  exact (yields_unsignedVarint (Nat.zero_le _)).map rfl

theorem yields_compactNullableString {value : Option String}
    (small : ∀ s ∈ value, (utf8 s).length < u32Max) :
    Yields least readCompactNullableString (putCompactNullableString value) value := by
  cases value with
  | none => exact yields_compactLen_none.map rfl
  | some s =>
    apply (yields_compactLen (small s rfl) (Nat.le_refl _)).bind _ (Nat.le_add_right ..)
    exact (yields_text s).map rfl

theorem yields_compactNullableBytes {value : Option (List UInt8)}
    (small : ∀ b ∈ value, b.length < u32Max) :
    Yields least readCompactNullableBytes (putCompactNullableBytes value) value := by
  cases value with
  | none => exact yields_compactLen_none.map rfl
  | some b =>
    apply (yields_compactLen (small b rfl) (Nat.le_refl _)).bind _ (Nat.le_add_right ..)
    exact (Yields.take truncated b).map rfl

theorem yields_legacyNullableString {value : Option String}
    (short : ∀ s ∈ value, (utf8 s).length ≤ i16Max) :
    Yields least readLegacyNullableString (putLegacyNullableString value) value := by
  cases value with
  | none =>
    apply Yields.get
    intro cur
    exact (yields_i16 (by decide) (by decide)).map rfl
  | some s =>
    have fits : min (utf8 s).length i16Max = (utf8 s).length := Nat.min_eq_left (short s rfl)
    have narrow : ((utf8 s).length : Int) < 2 ^ 15 := by
      have := short s rfl
      unfold i16Max at this
      omega
    unfold putLegacyNullableString
    dsimp only
    rw [fits]
    apply Yields.get
    intro cur
    apply (yields_i16 (by omega) narrow).bind _ (Nat.zero_le _)
    rw [if_neg (by omega), if_neg (by omega)]
    exact (yields_text s).map rfl

theorem yields_nonNull {α : Type} {x : Halting (Option α)} {put : List UInt8} {value : α}
    (read : Yields least x put (some value)) : Yields least (nonNull x) put value := by
  apply Yields.get
  intro cur
  exact read.map rfl

theorem yields_lengthPrefixed {value : List UInt8} {max : Nat} (short : value.length ≤ i32Max)
    (room : value.length ≤ max) : Yields least (readLengthPrefixed max)
      (putI32 (min value.length i32Max : Nat) ++ value) value := by
  have fits : min value.length i32Max = value.length := Nat.min_eq_left short
  have narrow : (value.length : Int) < 2 ^ 31 := by
    unfold i32Max at short
    omega
  rw [fits]
  apply Yields.get
  intro cur
  apply (yields_i32 (by omega) narrow).bind _ (Nat.zero_le _)
  rw [if_neg (by omega), if_neg (by omega)]
  exact Yields.take truncated value

theorem yields_bytes (flexible : Bool) {value : List UInt8} (short : value.length ≤ i32Max) :
    Yields least (readBytes flexible) (putBytes flexible value) value := by
  cases flexible with
  | true =>
    have small : ∀ b ∈ some value, b.length < u32Max := by
      rintro b ⟨⟩
      exact Nat.lt_of_le_of_lt short (by decide)
    exact yields_nonNull (yields_compactNullableBytes small)
  | false =>
    intro cur after enough starts
    have room : value.length ≤ cur.remaining := by
      rw [Cursor.remaining_eq, starts]
      unfold putBytes
      simp only [Bool.false_eq_true, if_false, List.length_append]
      omega
    exact yields_lengthPrefixed short room cur after enough starts

theorem yields_arrayLen (flexible : Bool) {count : Option Nat} (small : ∀ n ∈ count, n ≤ i32Max) :
    Yields (count.getD 0) (readArrayLen flexible) (putArrayLen flexible count) count := by
  cases flexible with
  | true =>
    cases count with
    | none => exact yields_compactLen_none
    | some n =>
      exact yields_compactLen (Nat.lt_of_le_of_lt (small n rfl) (by decide)) (Nat.le_refl _)
  | false =>
    cases count with
    | none =>
      apply Yields.get
      intro cur
      exact (yields_i32 (by decide) (by decide)).map rfl
    | some n =>
      have short := small n rfl
      have fits : min n i32Max = n := Nat.min_eq_left short
      have narrow : (n : Int) < 2 ^ 31 := by
        unfold i32Max at short
        omega
      unfold putArrayLen
      simp only [Bool.false_eq_true, if_false]
      rw [fits, ← List.append_nil (putI32 n)]
      apply Yields.get
      intro cur
      apply (yields_i32 (by omega) narrow).bind _ (Nat.zero_le _)
      rw [if_neg (by omega), if_neg (by omega)]
      exact (yields_bounded (Nat.le_refl _)).map rfl

theorem yields_taggedField {field : RawTaggedField} (counted : field.Counted) :
    Yields least readTaggedField (putTaggedField field) field := by
  have tag : field.tag.toNat ≤ u32Max := Nat.le_of_lt_succ field.tag.toNat_lt
  have fits : min field.data.length u32Max = field.data.length := Nat.min_eq_left counted
  unfold putTaggedField
  rw [fits]
  apply (yields_unsignedVarint tag).bind _ (Nat.zero_le _)
  apply Yields.get
  intro cur
  apply (yields_unsignedVarint counted).bind _ (Nat.zero_le _)
  rw [← List.nil_append field.data]
  apply (yields_bounded (Nat.le_refl field.data.length)).bind _ (Nat.le_add_right ..)
  apply (Yields.take truncated field.data).map
  rw [UInt32.ofNat_toNat]

theorem yields_taggedFieldsFrom {fields : List RawTaggedField}
    (counted : ∀ field ∈ fields, field.Counted) : Yields least
      (readTaggedFieldsFrom fields.length) (fields.flatMap putTaggedField) fields := by
  induction fields with
  | nil => exact Yields.pure []
  | cons field rest ih =>
    have both := List.forall_mem_cons.mp counted
    rw [List.flatMap_cons]
    apply (yields_taggedField both.1).bind _ (Nat.zero_le _)
    exact (ih both.2).map rfl

theorem length_taggedField_pos (field : RawTaggedField) : 1 ≤ (putTaggedField field).length := by
  unfold putTaggedField putUnsignedVarint
  rw [putGroups_eq, List.length_append]
  obtain ⟨more, last, whole, -, -⟩ := Varint.encode_stops field.tag.toNat
  rw [whole, List.length_append, List.length_singleton]
  omega

theorem length_le_flatMap (fields : List RawTaggedField) :
    fields.length ≤ (fields.flatMap putTaggedField).length := by
  induction fields with
  | nil => exact Nat.le_refl _
  | cons field rest ih =>
    have positive := length_taggedField_pos field
    rw [List.flatMap_cons, List.length_append, List.length_cons]
    omega

theorem yields_taggedFields {fields : TaggedFields} (counted : fields.Counted) :
    Yields least readTaggedFields (putTaggedFields fields) fields := by
  have fits : min fields.unknown.length u32Max = fields.unknown.length :=
    Nat.min_eq_left counted.fields
  unfold putTaggedFields
  rw [fits]
  apply (yields_unsignedVarint counted.fields).bind _ (Nat.zero_le _)
  apply Yields.get
  intro cur
  rw [← List.nil_append (fields.unknown.flatMap putTaggedField)]
  apply (yields_bounded (Nat.le_refl fields.unknown.length)).bind _
    (Nat.le_trans (length_le_flatMap _) (Nat.le_add_right ..))
  exact (yields_taggedFieldsFrom counted.each).map rfl

theorem spends_slow (width maxBytes at_ rounds index value : Nat) :
    Spends (fun _ => 1) (slow width maxBytes at_ rounds index value) := by
  induction rounds generalizing index value with
  | zero => exact Spends.throw _
  | succ rounds ih =>
    apply (Spends.take truncated 1).bind
    intro bytes
    have none_ : 1 - max 1 bytes.length = 0 := Nat.sub_eq_zero_of_le (Nat.le_max_left ..)
    dsimp only
    rw [none_]
    apply Spends.ite
    · exact Spends.pure rfl
    · exact (ih _ _).mono fun _ => Nat.zero_le _

theorem spends_scanned (width len : Nat) : Spends (fun _ => len) (scanned width len) := by
  apply (Spends.take truncated len).bind
  intro bytes
  exact Spends.pure (Nat.sub_eq_zero_of_le (Nat.le_max_left ..))

theorem spends_readUnsignedVarint : Spends (fun _ => 1) readUnsignedVarint := by
  apply Spends.get
  intro cur
  cases peekWord cur with
  | none => exact spends_slow 32 maxVarintBytes cur.pos maxVarintBytes 0 0
  | some word =>
    apply Spends.ite
    · exact Spends.throw _
    · exact (spends_scanned _ _).mono fun _ => swarLen_pos word

theorem spends_signed (width : Nat) : Spends (fun _ => 0) (signed width) := by
  apply (Spends.take truncated width).bind
  intro bytes
  exact Spends.pure (Nat.zero_sub _)

theorem spends_bounded (count at_ : Nat) : Spends (fun _ => 0) (bounded count at_) := by
  apply Spends.get
  intro cur
  apply Spends.ite
  · exact Spends.throw _
  · exact Spends.pure rfl

theorem spends_text (len : Nat) : Spends (fun text => (utf8 text).length) (readText len) := by
  apply Spends.get
  intro cur
  apply (Spends.take truncated len).bind
  intro bytes
  cases read : String.fromUTF8? ⟨bytes.toArray⟩ with
  | none => exact Spends.throw _
  | some text =>
    rw [fromUTF8?_eq_some.mp read]
    exact Spends.pure (Nat.sub_eq_zero_of_le (Nat.le_max_right ..))

abbrev nullable {α : Type} (size : α → Nat) (value : Option α) : Nat := value.elim 0 size

theorem spends_nonNull {α : Type} {size : α → Nat} {x : Halting (Option α)}
    (spends : Spends (nullable size) x) : Spends size (nonNull x) := by
  apply Spends.get
  intro cur
  apply spends.bind
  rintro (_ | value)
  · exact Spends.throw _
  · exact Spends.pure (Nat.sub_self _)

theorem spends_compactLen : Spends (fun _ => 0) readCompactLen := by
  apply Spends.get
  intro cur
  apply spends_readUnsignedVarint.bind
  intro raw
  apply Spends.ite
  · exact Spends.pure rfl
  · exact (spends_bounded _ _).bind fun _ => Spends.pure rfl

theorem spends_legacyArrayLen : Spends (fun _ => 0) readLegacyArrayLen := by
  apply Spends.get
  intro cur
  apply (spends_signed 4).bind
  intro count
  apply Spends.ite
  · exact Spends.pure rfl
  · apply Spends.ite
    · exact Spends.throw _
    · exact (spends_bounded _ _).bind fun _ => Spends.pure rfl

theorem spends_arrayLen (flexible : Bool) : Spends (fun _ => 0) (readArrayLen flexible) := by
  apply Spends.ite
  · exact spends_compactLen
  · exact spends_legacyArrayLen

theorem spends_legacyNullableString :
    Spends (nullable fun s => (utf8 s).length) readLegacyNullableString := by
  apply Spends.get
  intro cur
  apply (spends_signed 2).bind
  intro length
  apply Spends.ite
  · exact Spends.pure rfl
  · apply Spends.ite
    · exact Spends.throw _
    · apply (spends_text _).bind
      intro text
      exact Spends.pure (Nat.sub_self _)

theorem spends_compactNullableString :
    Spends (nullable fun s => (utf8 s).length) readCompactNullableString := by
  apply spends_compactLen.bind
  rintro (_ | len)
  · exact Spends.pure rfl
  · apply (spends_text _).bind
    intro text
    exact Spends.pure (Nat.sub_self _)

theorem spends_nullableString (flexible : Bool) :
    Spends (nullable fun s => (utf8 s).length) (readNullableString flexible) := by
  apply Spends.ite
  · exact spends_compactNullableString
  · exact spends_legacyNullableString

theorem spends_string (flexible : Bool) :
    Spends (fun s => (utf8 s).length) (readString flexible) :=
  spends_nonNull (spends_nullableString flexible)

theorem spends_take (len : Nat) : Spends List.length (take len) :=
  (Spends.take truncated len).mono fun _ => Nat.le_max_right ..

theorem spends_compactNullableBytes :
    Spends (nullable List.length) readCompactNullableBytes := by
  apply spends_compactLen.bind
  rintro (_ | len)
  · exact Spends.pure rfl
  · apply (spends_take len).bind
    intro bytes
    exact Spends.pure (Nat.sub_self _)

theorem spends_lengthPrefixed (max : Nat) : Spends List.length (readLengthPrefixed max) := by
  apply Spends.get
  intro cur
  apply (spends_signed 4).bind
  intro length
  apply Spends.ite
  · exact Spends.throw _
  · apply Spends.ite
    · exact Spends.throw _
    · exact spends_take _

theorem spends_bytes (flexible : Bool) : Spends List.length (readBytes flexible) := by
  apply Spends.ite
  · exact spends_nonNull spends_compactNullableBytes
  · apply Spends.get
    intro cur
    exact spends_lengthPrefixed _

abbrev fieldSize (field : RawTaggedField) : Nat := field.data.length + 2

theorem spends_taggedField : Spends fieldSize readTaggedField := by
  apply spends_readUnsignedVarint.bind
  intro tag
  apply Spends.get
  intro cur
  apply spends_readUnsignedVarint.bind
  intro size
  apply (spends_bounded _ _).bind
  intro size
  apply (spends_take size).bind
  intro data
  apply Spends.pure
  dsimp only [fieldSize]
  omega

theorem spends_taggedFieldsFrom (count : Nat) :
    Spends (fun fields => (fields.map fieldSize).sum) (readTaggedFieldsFrom count) := by
  induction count with
  | zero => exact Spends.pure rfl
  | succ count ih =>
    apply spends_taggedField.bind
    intro field
    apply ih.bind
    intro fields
    apply Spends.pure
    rw [List.map_cons, List.sum_cons]
    omega

theorem spends_taggedFields :
    Spends (fun fields => (fields.unknown.map fieldSize).sum) readTaggedFields := by
  apply spends_readUnsignedVarint.bind
  intro count
  apply Spends.get
  intro cur
  apply (spends_bounded _ _).bind
  intro count
  apply (spends_taggedFieldsFrom count).bind
  intro fields
  apply Spends.pure
  dsimp only
  omega

theorem text_ends (len : Nat) : Ends (fun text _ => (utf8 text).length ≤ len) (readText len) := by
  apply Ends.get
  intro cur
  refine (Ends.take truncated len).bind fun bytes mid short => ?_
  cases found : String.fromUTF8? ⟨bytes.toArray⟩ with
  | none => exact Ends.throw _
  | some text =>
    apply Ends.pure
    intro mid
    rw [← fromUTF8?_eq_some.mp found]
    exact short

/-- A longer one has its length written as the greatest, and no more than that is read. -/
theorem short_of_legacyNullableString {s : String} (read : Yields least readLegacyNullableString
    (putLegacyNullableString (some s)) (some s)) : (utf8 s).length ≤ i16Max := by
  by_contra long
  have saturated : min (utf8 s).length i16Max = i16Max :=
    Nat.min_eq_right (Nat.le_of_not_le long)
  let cur : Cursor := { buf := putLegacyNullableString (some s) ++ List.replicate least 0 }
  have starts : cur.rest = putI16 (i16Max : Nat) ++ (utf8 s ++ List.replicate least 0) := by
    rw [← List.append_assoc, ← saturated]
    rfl
  have counts : Yields 0 readI16 (putI16 (i16Max : Nat)) (i16Max : Nat) :=
    yields_i16 (by decide) (by decide)
  have counted := counts cur _ (Nat.zero_le _) starts
  have back := read cur _ (List.length_replicate ..).ge rfl
  change (readI16 >>= fun length => if length = -1 then pure none
    else if length < 0 then throw (.negativeLength length cur.pos)
    else readText length.toNat >>= fun text => pure (some text)) cur = _ at back
  rw [bind_ok counted, if_neg (by decide), if_neg (by decide)] at back
  rcases bind_cases (readText i16Max) (fun text => pure (some text)) (cur.advance 2) with
    ⟨e, mid, ran, both⟩ | ⟨text, mid, ran, both⟩
  · cases both.symm.trans back
  · cases both.symm.trans back
    exact long (text_ends i16Max ran)

theorem yields_nullableString_iff (flexible : Bool) {value : Option String}
    (small : ∀ s ∈ value, (utf8 s).length ≤ i32Max) :
    Yields least (readNullableString flexible) (putNullableString flexible value) value ↔
      (flexible = true ∨ ∀ s ∈ value, (utf8 s).length ≤ i16Max) := by
  cases flexible with
  | true =>
    have fits : ∀ s ∈ value, (utf8 s).length < u32Max :=
      fun s member => Nat.lt_of_le_of_lt (small s member) (by decide)
    exact iff_of_true (yields_compactNullableString fits) (.inl rfl)
  | false =>
    constructor
    · rintro read
      right
      rintro s ⟨⟩
      exact short_of_legacyNullableString read
    · rintro (flexible | short)
      · cases flexible
      · exact yields_legacyNullableString short

theorem nonNull_eq_ok {α : Type} {x : Halting (Option α)} {cur mid : Cursor} {value : α}
    (read : nonNull x cur = (.ok value, mid)) : x cur = (.ok (some value), mid) := by
  change (x >>= fun found => match found with
    | none => throw (.unexpectedNull cur.pos)
    | some value => pure value) cur = _ at read
  rcases ran : x cur with ⟨e | _ | found, mid'⟩
  · rw [bind_error ran] at read
    cases read
  · rw [bind_ok ran] at read
    cases read
  · rw [bind_ok ran] at read
    cases read
    rfl

theorem yields_string_iff (flexible : Bool) {s : String} (small : (utf8 s).length ≤ i32Max) :
    Yields least (readString flexible) (putString flexible s) s ↔
      (flexible = true ∨ (utf8 s).length ≤ i16Max) := by
  have same : putString flexible s = putNullableString flexible (some s) := rfl
  have through : Yields least (readString flexible) (putString flexible s) s ↔
      Yields least (readNullableString flexible) (putNullableString flexible (some s)) (some s) := by
    rw [same]
    refine ⟨fun read cur after enough starts => nonNull_eq_ok (read cur after enough starts), ?_⟩
    exact yields_nonNull
  have small' : ∀ t ∈ some s, (utf8 t).length ≤ i32Max := by
    rintro t ⟨⟩
    exact small
  rw [through, yields_nullableString_iff flexible small']
  simp

theorem bounded_ends (count at_ : Nat) :
    Ends (fun n mid => n ≤ mid.remaining ∧ n = count) (bounded count at_) := by
  intro cur n mid read
  change (if cur.remaining < count then throw (.lengthOutOfBounds count cur.remaining at_)
    else pure count : Halting Nat) cur = _ at read
  split at read
  · cases read
  · rename_i room
    cases read
    exact ⟨Nat.not_lt.mp room, rfl⟩

abbrev Remains (count : Option Nat) (mid : Cursor) : Prop := ∀ n ∈ count, n ≤ mid.remaining

theorem someBounded_ends (count at_ : Nat) :
    Ends Remains (do return some (← bounded count at_)) := by
  intro cur count' mid read n member
  rcases bind_cases (bounded count at_) (fun n => pure (some n)) cur with
    ⟨e, mid', ran, both⟩ | ⟨m, mid', ran, both⟩
  · cases both.symm.trans read
  · cases both.symm.trans read
    cases member
    exact (bounded_ends count at_ ran).1

theorem arrayLen_ends (flexible : Bool) : Ends Remains (readArrayLen flexible) := by
  apply Ends.ite
  · apply Ends.get
    intro cur
    refine (Ends.trivial _).bind fun raw _ _ => ?_
    apply Ends.ite
    · exact Ends.pure fun _ _ member => by cases member
    · exact someBounded_ends ..
  · apply Ends.get
    intro cur
    refine (Ends.trivial _).bind fun count _ _ => ?_
    apply Ends.ite
    · exact Ends.pure fun _ _ member => by cases member
    · apply Ends.ite
      · exact Ends.throw _
      · exact someBounded_ends ..

theorem accumulate_lt {width value : Nat} (small : value < 2 ^ width) (index : Nat)
    (byte : UInt8) : accumulate width value index byte < 2 ^ width :=
  Nat.or_lt_two_pow small (Nat.mod_lt _ (Nat.two_pow_pos width))

theorem slow_ends {width maxBytes at_ rounds index value : Nat} (small : value < 2 ^ width) :
    Ends (fun v _ => v < 2 ^ width) (slow width maxBytes at_ rounds index value) := by
  induction rounds generalizing index value with
  | zero => exact Ends.throw _
  | succ rounds ih =>
    refine (Ends.trivial _).bind fun bytes _ _ => ?_
    have next := accumulate_lt small index (bytes.headD 0)
    apply Ends.ite
    · exact Ends.pure fun _ => next
    · exact ih next

theorem scanned_ends (width len : Nat) : Ends (fun v _ => v < 2 ^ width) (scanned width len) := by
  refine (Ends.trivial _).bind fun bytes _ _ => ?_
  apply Ends.pure
  intro _
  exact List.foldlRecOn (motive := (· < 2 ^ width)) bytes.zipIdx _ (Nat.two_pow_pos width)
    fun value small item _ => accumulate_lt small item.2 item.1

theorem readUnsignedVarint_ends : Ends (fun v _ => v ≤ u32Max) readUnsignedVarint := by
  have narrow : ∀ (v : Nat) (_ : Cursor), v < 2 ^ 32 → v ≤ u32Max :=
    fun v _ small => Nat.le_of_lt_succ small
  apply Ends.get
  intro cur
  cases peekWord cur with
  | none =>
    have start : (0 : Nat) < 2 ^ 32 := by decide
    exact (slow_ends start).mono narrow
  | some word =>
    apply Ends.ite
    · exact Ends.throw _
    · exact (scanned_ends 32 _).mono narrow

theorem taggedField_ends : Ends (fun field _ => field.Counted) readTaggedField := by
  refine (Ends.trivial _).bind fun tag _ _ => ?_
  apply Ends.get
  intro cur
  refine readUnsignedVarint_ends.bind fun size _ small => ?_
  refine (bounded_ends size cur.pos).bind ?_
  rintro size' _ ⟨-, rfl⟩
  refine (Ends.take truncated size').bind fun data _ short => ?_
  exact Ends.pure fun _ => Nat.le_trans short small

theorem taggedFieldsFrom_ends (count : Nat) :
    Ends (fun fields _ => fields.length = count ∧ ∀ field ∈ fields, field.Counted)
      (readTaggedFieldsFrom count) := by
  induction count with
  | zero => exact Ends.pure fun _ => ⟨rfl, fun _ member => by cases member⟩
  | succ count ih =>
    refine taggedField_ends.bind fun field _ counted => ?_
    refine ih.bind ?_
    rintro fields _ ⟨length, each⟩
    apply Ends.pure
    intro _
    exact ⟨congrArg (· + 1) length, List.forall_mem_cons.mpr ⟨counted, each⟩⟩

theorem taggedFields_ends : Ends (fun fields _ => fields.Counted) readTaggedFields := by
  refine readUnsignedVarint_ends.bind fun count _ small => ?_
  apply Ends.get
  intro cur
  refine (bounded_ends count cur.pos).bind ?_
  rintro count' _ ⟨-, rfl⟩
  refine (taggedFieldsFrom_ends count').bind ?_
  rintro fields _ ⟨length, each⟩
  apply Ends.pure
  intro _
  exact ⟨length ▸ small, each⟩

/-- What is put is read back and no more, whatever follows, but a legacy string that an `i16`
does not count. On any bytes a read stays among them, also one that refuses, and returns what
they had room for. Tagged fields that were read are read again from what is put for them. -/
theorem strings_read_back_iff (flexible : Bool) :
    (∀ s, (utf8 s).length ≤ i32Max →
      (Yields 0 (readString flexible) (putString flexible s) s ↔
        (flexible = true ∨ (utf8 s).length ≤ i16Max))) ∧
    (∀ value, (∀ s ∈ value, (utf8 s).length ≤ i32Max) →
      (Yields 0 (readNullableString flexible) (putNullableString flexible value) value ↔
        (flexible = true ∨ ∀ s ∈ value, (utf8 s).length ≤ i16Max))) ∧
    (∀ value, value.length ≤ i32Max →
      Yields 0 (readBytes flexible) (putBytes flexible value) value) ∧
    (∀ count, (∀ n ∈ count, n ≤ i32Max) →
      Yields (count.getD 0) (readArrayLen flexible) (putArrayLen flexible count) count) ∧
    (∀ fields : TaggedFields, fields.Counted →
      Yields 0 readTaggedFields (putTaggedFields fields) fields) ∧
    (Spends (fun s => (utf8 s).length) (readString flexible) ∧
      Spends (nullable fun s => (utf8 s).length) (readNullableString flexible) ∧
      Spends List.length (readBytes flexible) ∧
      Spends (fun _ => 0) (readArrayLen flexible) ∧ Ends Remains (readArrayLen flexible)) ∧
    (∀ max, Spends List.length (readLengthPrefixed max)) ∧
    Spends (fun fields => (fields.unknown.map fieldSize).sum) readTaggedFields ∧
    (∀ cur fields mid, readTaggedFields cur = (.ok fields, mid) →
      Yields 0 readTaggedFields (putTaggedFields fields) fields) := by
  refine ⟨fun _ small => yields_string_iff flexible small,
    fun _ small => yields_nullableString_iff flexible small,
    fun _ short => yields_bytes flexible short, fun _ small => yields_arrayLen flexible small,
    fun _ counted => yields_taggedFields counted, ?_, spends_lengthPrefixed,
    spends_taggedFields, fun cur fields mid read => ?_⟩
  · exact ⟨spends_string flexible, spends_nullableString flexible, spends_bytes flexible,
      spends_arrayLen flexible, arrayLen_ends flexible⟩
  · exact yields_taggedFields (taggedFields_ends read)

theorem text_read_back : Yields 0 (readString false) (putString false "orders") "orders" ∧
    Yields 0 (readBytes true) (putBytes true [1, 2]) [1, 2] ∧
    Yields 3 (readArrayLen true) (putArrayLen true (some 3)) (some 3) ∧
    Yields 0 readTaggedFields (putTaggedFields ⟨[⟨7, [1]⟩]⟩) ⟨[⟨7, [1]⟩]⟩ := by
  obtain ⟨strings, -⟩ := strings_read_back_iff false
  obtain ⟨-, -, bytes, counts, tagged, -⟩ := strings_read_back_iff true
  have counted : (⟨[⟨7, [1]⟩]⟩ : TaggedFields).Counted := by
    refine ⟨by decide, ?_⟩
    rintro field (_ | ⟨_, ⟨⟩⟩)
    unfold RawTaggedField.Counted
    decide
  exact ⟨(strings "orders" (by decide)).mpr (.inr (by decide)), bytes [1, 2] (by decide),
    counts (some 3) (by rintro _ ⟨⟩; decide), tagged _ counted⟩

abbrev long (count : Nat) : String := String.ofList (List.replicate count 'a')

theorem length_long (count : Nat) : (utf8 (long count)).length = count := by
  have single : 'a'.utf8Size = 1 := rfl
  unfold utf8
  simp [List.utf8Encode, single]

/-- A name of one byte more than an `i16` counts comes in by the compact form, and what is put
for it by the legacy one is read as another. -/
theorem long_name_misread :
    Yields 0 (readString true) (putString true (long 32768)) (long 32768) ∧
      ¬ Yields 0 (readString false) (putString false (long 32768)) (long 32768) := by
  have small : (utf8 (long 32768)).length ≤ i32Max := by
    rw [length_long]
    decide
  refine ⟨(yields_string_iff true small).mpr (.inl rfl), fun read => ?_⟩
  rcases (yields_string_iff false small).mp read with compact | short
  · cases compact
  · rw [length_long] at short
    revert short
    decide

end Halting

end Oqueue.Codec
