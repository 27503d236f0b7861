import Oqueue.Broker.Catalog
import Oqueue.Core.SegmentFormat

/-!
# A catalog entry's bytes

Four layouts, by key domain and creator. Where a layout has a field after a
text, the text's length stands before it; the last text of the others is
whatever is left.
-/

namespace Oqueue.Broker.StoredCatalog

open Bytes Checked Reader Format Segment

def defaultFormat : Nat := 1
def customerFormat : Nat := 2
def ownerDefaultFormat : Nat := 3
def ownerCustomerFormat : Nat := 4

def newPrincipal (name : String) : Except Error Principal :=
  if name.isEmpty then .error .emptyPrincipal else .ok name

def lengthOf (text : List UInt8) (at_ : Nat) : Except Error (List UInt8) :=
  if text.length < 2 ^ 16 then .ok (toBeBytes 2 text.length)
  else .error (.malformedMetadataSegment at_)

def encodeDefault (entry : CatalogEntry) : List UInt8 :=
  toBeBytes 1 defaultFormat ++ toBeBytes 4 entry.partitions ++ utf8 entry.name.name

def encodeOwnedDefault (entry : CatalogEntry) (creator : Principal) : Except Error (List UInt8) := do
  let creator := utf8 creator
  let creatorLen ← lengthOf creator 5
  return toBeBytes 1 ownerDefaultFormat ++ toBeBytes 4 entry.partitions ++ creatorLen ++ creator ++
    utf8 entry.name.name

def encodeCustomer (entry : CatalogEntry) (key : List UInt8) : Except Error (List UInt8) := do
  let name := utf8 entry.name.name
  let nameLen ← lengthOf name 5
  let keyLen ← lengthOf key (7 + name.length)
  return toBeBytes 1 customerFormat ++ toBeBytes 4 entry.partitions ++ nameLen ++ name ++ keyLen ++ key

def encodeOwnedCustomer (entry : CatalogEntry) (key creator : List UInt8) :
    Except Error (List UInt8) := do
  let name := utf8 entry.name.name
  let nameLen ← lengthOf name 5
  let keyLen ← lengthOf key (7 + name.length)
  let creatorLen ← lengthOf creator (9 + name.length + key.length)
  return toBeBytes 1 ownerCustomerFormat ++ toBeBytes 4 entry.partitions ++ nameLen ++ name ++
    keyLen ++ key ++ creatorLen ++ creator

def encode (entry : CatalogEntry) : Except Error (List UInt8) :=
  match entry.keyDomain, entry.creator with
  | .defaultDomain, none => .ok (encodeDefault entry)
  | .defaultDomain, some creator => encodeOwnedDefault entry creator
  | .customer key, none => encodeCustomer entry (utf8 key.id)
  | .customer key, some creator => encodeOwnedCustomer entry (utf8 key.id) (utf8 creator)

def readText (len : Nat) : Read Error String := do
  let cur ← get
  let raw ← take malformed len
  match String.fromUTF8? ⟨raw.toArray⟩ with
  | some text => return text
  | none => throw (.malformedMetadataSegment cur.pos)

/-- A text that its type accepts, or the offset the text started at. -/
def readNamed {α : Type} (make : String → Except Error α) (len : Nat) : Read Error α := do
  let cur ← get
  let text ← readText len
  liftM ((make text).mapError fun _ => Error.malformedMetadataSegment cur.pos)

def readLen : Read Error Nat := unsigned malformed 2

def decodeDefault (partitions : Nat) : Read Error CatalogEntry := do
  let cur ← get
  let name ← readNamed TopicId.new cur.remaining
  return { name, partitions }

def decodeCustomerPrefix : Read Error (TopicId × KeyDomain) := do
  let nameLen ← readLen
  let name ← readNamed TopicId.new nameLen
  let keyLen ← readLen
  let key ← readNamed KeyId.new keyLen
  return (name, .customer key)

def decodeCustomer (partitions : Nat) : Read Error CatalogEntry := do
  let (name, keyDomain) ← decodeCustomerPrefix
  let cur ← get
  if cur.pos ≠ cur.buf.length then throw (.malformedMetadataSegment cur.pos)
  else return { name, partitions, keyDomain }

def decodeOwnerDefault (partitions : Nat) : Read Error CatalogEntry := do
  let creatorLen ← readLen
  let creator ← readNamed newPrincipal creatorLen
  let cur ← get
  let name ← readNamed TopicId.new cur.remaining
  return { name, partitions, creator := some creator }

def decodeOwnerCustomer (partitions : Nat) : Read Error CatalogEntry := do
  let (name, keyDomain) ← decodeCustomerPrefix
  let creatorLen ← readLen
  let cur ← get
  if cur.pos + creatorLen ≠ cur.buf.length then
    throw (.malformedMetadataSegment (cur.pos + creatorLen))
  else
    let creator ← readNamed newPrincipal creatorLen
    return { name, partitions, keyDomain, creator := some creator }

def readEntry : Read Error CatalogEntry := do
  let format ← u8
  let partitions ← u32
  match format with
  | 1 => decodeDefault partitions
  | 2 => decodeCustomer partitions
  | 3 => decodeOwnerDefault partitions
  | 4 => decodeOwnerCustomer partitions
  | _ => throw (.malformedMetadataSegment 0)

def decode (bytes : List UInt8) : Except Error CatalogEntry := do
  let (entry, _) ← readEntry.run { buf := bytes }
  return entry

/-- Every field holds a value of the source's own type. -/
structure Typed (entry : CatalogEntry) : Prop where
  name : entry.name.Typed
  partitions : entry.partitions < 2 ^ 32
  creator : ∀ creator, entry.creator = some creator → creator.isEmpty = false

/-- Every text with a length before it is short enough for it. -/
def Fits (entry : CatalogEntry) : Prop :=
  match entry.keyDomain, entry.creator with
  | .defaultDomain, none => True
  | .defaultDomain, some creator => Short creator
  | .customer _, none => Short entry.name.name
  | .customer _, some creator => Short entry.name.name ∧ Short creator

def formatOf (entry : CatalogEntry) : Nat :=
  match entry.keyDomain, entry.creator with
  | .defaultDomain, none => defaultFormat
  | .customer _, none => customerFormat
  | .defaultDomain, some _ => ownerDefaultFormat
  | .customer _, some _ => ownerCustomerFormat

def textsImage (entry : CatalogEntry) : List UInt8 :=
  match entry.keyDomain, entry.creator with
  | .defaultDomain, none => utf8 entry.name.name
  | .customer key, none => strImage entry.name.name ++ strImage key.id
  | .defaultDomain, some creator => strImage creator ++ utf8 entry.name.name
  | .customer key, some creator =>
    (strImage entry.name.name ++ strImage key.id) ++ strImage creator

def image (entry : CatalogEntry) : List UInt8 :=
  toBeBytes 1 (formatOf entry) ++ (toBeBytes 4 entry.partitions ++ textsImage entry)

theorem short_key (key : KeyId) : Short key.id :=
  Nat.lt_of_le_of_lt key.short (by decide)

theorem lengthOf_eq_ok {text : List UInt8} {at_ : Nat} {bytes : List UInt8} :
    lengthOf text at_ = .ok bytes ↔ text.length < 2 ^ 16 ∧ bytes = toBeBytes 2 text.length := by
  unfold lengthOf
  split
  · rename_i short
    rw [Except.ok.injEq, eq_comm]
    exact (and_iff_right short).symm
  · rename_i long
    exact iff_of_false nofun fun h => long h.1

theorem encode_eq_ok {entry : CatalogEntry} {bytes : List UInt8} :
    encode entry = .ok bytes ↔ Fits entry ∧ bytes = image entry := by
  obtain ⟨name, partitions, keyDomain, creator⟩ := entry
  cases keyDomain with
  | defaultDomain =>
    cases creator with
    | none => simp [encode, encodeDefault, Fits, image, formatOf, textsImage, eq_comm]
    | some creator =>
      constructor
      · intro h
        obtain ⟨creatorLen, hcreator, h⟩ := Checked.bind_eq_ok.mp h
        obtain ⟨short, rfl⟩ := lengthOf_eq_ok.mp hcreator
        cases h
        exact ⟨short, by simp [image, formatOf, textsImage, strImage]⟩
      · rintro ⟨short, rfl⟩
        refine Checked.bind_eq_ok.mpr ⟨_, lengthOf_eq_ok.mpr ⟨short, rfl⟩, ?_⟩
        simp only [image, formatOf, textsImage, strImage, List.append_assoc]
        rfl
  | customer key =>
    cases creator with
    | none =>
      constructor
      · intro h
        obtain ⟨nameLen, hname, h⟩ := Checked.bind_eq_ok.mp h
        obtain ⟨keyLen, hkey, h⟩ := Checked.bind_eq_ok.mp h
        obtain ⟨short, rfl⟩ := lengthOf_eq_ok.mp hname
        obtain ⟨-, rfl⟩ := lengthOf_eq_ok.mp hkey
        cases h
        exact ⟨short, by simp [image, formatOf, textsImage, strImage]⟩
      · rintro ⟨short, rfl⟩
        refine Checked.bind_eq_ok.mpr ⟨_, lengthOf_eq_ok.mpr ⟨short, rfl⟩, ?_⟩
        refine Checked.bind_eq_ok.mpr ⟨_, lengthOf_eq_ok.mpr ⟨short_key key, rfl⟩, ?_⟩
        simp only [image, formatOf, textsImage, strImage, List.append_assoc]
        rfl
    | some creator =>
      constructor
      · intro h
        obtain ⟨nameLen, hname, h⟩ := Checked.bind_eq_ok.mp h
        obtain ⟨keyLen, hkey, h⟩ := Checked.bind_eq_ok.mp h
        obtain ⟨creatorLen, hcreator, h⟩ := Checked.bind_eq_ok.mp h
        obtain ⟨short, rfl⟩ := lengthOf_eq_ok.mp hname
        obtain ⟨-, rfl⟩ := lengthOf_eq_ok.mp hkey
        obtain ⟨short', rfl⟩ := lengthOf_eq_ok.mp hcreator
        cases h
        exact ⟨⟨short, short'⟩, by simp [image, formatOf, textsImage, strImage]⟩
      · rintro ⟨⟨short, short'⟩, rfl⟩
        refine Checked.bind_eq_ok.mpr ⟨_, lengthOf_eq_ok.mpr ⟨short, rfl⟩, ?_⟩
        refine Checked.bind_eq_ok.mpr ⟨_, lengthOf_eq_ok.mpr ⟨short_key key, rfl⟩, ?_⟩
        refine Checked.bind_eq_ok.mpr ⟨_, lengthOf_eq_ok.mpr ⟨short', rfl⟩, ?_⟩
        simp only [image, formatOf, textsImage, strImage, List.append_assoc]
        rfl

theorem reads_text (len : Nat) : Reads (readText len) fun text bytes =>
    (utf8 text).length = len ∧ bytes = utf8 text :=
  Reads.get_bind fun _ => reads_utf8 malformed _ len

section
variable {α : Type} {make : String → Except Error α} {text : α → String} {valid : α → Prop}
  (makes : ∀ raw a, make raw = .ok a ↔ text a = raw ∧ valid a)
include makes

theorem reads_named (len : Nat) : Reads (readNamed make len) fun a bytes =>
    ((valid a ∧ bytes = utf8 (text a)) ∧ bytes.length = len) := by
  apply Reads.get_bind
  intro cur
  have made (raw : String) : Reads
      (liftM ((make raw).mapError fun _ => Error.malformedMetadataSegment cur.pos) : Read Error α)
        fun a bytes => (text a = raw ∧ valid a) ∧ bytes = [] := by
    refine Reads.check.congr fun a bytes => ?_
    rw [accepts_mapError, makes]
  refine ((reads_text len).bind made).congr fun a bytes => ?_
  constructor
  · rintro ⟨_, _, _, ⟨length, rfl⟩, ⟨⟨rfl, valid⟩, rfl⟩, rfl⟩
    rw [List.append_nil]
    exact ⟨⟨valid, rfl⟩, length⟩
  · rintro ⟨⟨valid, rfl⟩, length⟩
    exact ⟨_, _, _, ⟨length, rfl⟩, ⟨⟨rfl, valid⟩, rfl⟩, (List.append_nil _).symm⟩

theorem reads_lengthed : Reads (readLen >>= readNamed make) fun a bytes =>
    (valid a ∧ Short (text a)) ∧ bytes = strImage (text a) := by
  refine ((Reads.unsigned malformed 2).bind fun len => reads_named makes len).congr fun a bytes => ?_
  constructor
  · rintro ⟨_, _, _, ⟨small, rfl⟩, ⟨⟨valid, rfl⟩, rfl⟩, rfl⟩
    exact ⟨⟨valid, small⟩, rfl⟩
  · rintro ⟨⟨valid, short⟩, rfl⟩
    exact ⟨_, _, _, ⟨short, rfl⟩, ⟨⟨valid, rfl⟩, rfl⟩, rfl⟩

theorem reads_last : ReadsRest (do readNamed make (← get).remaining) fun a bytes =>
    valid a ∧ bytes = utf8 (text a) :=
  ReadsRest.remaining (reads_named makes)

end

theorem makes_topic (raw : String) (topic : TopicId) :
    TopicId.new raw = .ok topic ↔ topic.name = raw ∧ topic.Typed := by
  obtain ⟨name⟩ := topic
  simp only [TopicId.new, TopicId.Typed]
  constructor
  · intro made
    split at made
    · cases made
    · rename_i nonempty
      cases made
      exact ⟨rfl, Bool.not_eq_true _ ▸ nonempty⟩
  · rintro ⟨rfl, nonempty⟩
    rw [if_neg (Bool.not_eq_true _ ▸ nonempty)]

theorem makes_key (raw : String) (key : KeyId) : KeyId.new raw = .ok key ↔ key.id = raw ∧ True := by
  rw [and_true, KeyId.new_eq_ok]

theorem makes_principal (raw : String) (creator : Principal) :
    newPrincipal raw = .ok creator ↔ creator = raw ∧ creator.isEmpty = false := by
  unfold newPrincipal
  constructor
  · intro made
    split at made
    · cases made
    · rename_i nonempty
      cases made
      exact ⟨rfl, Bool.not_eq_true _ ▸ nonempty⟩
  · rintro ⟨rfl, nonempty⟩
    rw [if_neg (Bool.not_eq_true _ ▸ nonempty)]

theorem reads_customerPrefix : Reads decodeCustomerPrefix fun pair bytes => ∃ key,
    (pair.1.Typed ∧ Short pair.1.name) ∧ pair.2 = .customer key ∧
      bytes = strImage pair.1.name ++ strImage key.id := by
  have same : decodeCustomerPrefix = ((readLen >>= readNamed TopicId.new) >>= fun name =>
      (readLen >>= readNamed KeyId.new) >>= fun key => pure (name, KeyDomain.customer key)) := by
    simp only [decodeCustomerPrefix, bind_assoc]
  rw [same]
  refine ((reads_lengthed makes_topic).bind fun name => (reads_lengthed makes_key).bind fun key =>
    Reads.pure (name, KeyDomain.customer key)).congr fun pair bytes => ?_
  obtain ⟨name, keyDomain⟩ := pair
  constructor
  · rintro ⟨_, _, _, ⟨named, rfl⟩, ⟨key, _, _, ⟨-, rfl⟩, ⟨same, rfl⟩, rfl⟩, rfl⟩
    cases same
    exact ⟨key, named, rfl, by rw [List.append_nil]⟩
  · rintro ⟨key, named, rfl, rfl⟩
    exact ⟨name, _, _, ⟨named, rfl⟩, ⟨key, _, _, ⟨⟨trivial, short_key key⟩, rfl⟩, ⟨rfl, rfl⟩, rfl⟩,
      by rw [List.append_nil]⟩

/-- What the reader of a format accepts: the texts of an entry of that format. -/
def Layout (format partitions : Nat) (entry : CatalogEntry) (bytes : List UInt8) : Prop :=
  (entry.name.Typed ∧ ∀ creator, entry.creator = some creator → creator.isEmpty = false) ∧
    entry.partitions = partitions ∧ Fits entry ∧ formatOf entry = format ∧ bytes = textsImage entry

theorem reads_default (partitions : Nat) :
    ReadsRest (decodeDefault partitions) (Layout defaultFormat partitions) := by
  refine ((reads_last makes_topic).map fun name => ({ name, partitions } : CatalogEntry)).congr
    fun entry bytes => ?_
  obtain ⟨name, partitions', keyDomain, creator⟩ := entry
  constructor
  · rintro ⟨name, ⟨typed, rfl⟩, same⟩
    cases same
    exact ⟨⟨typed, nofun⟩, rfl, trivial, rfl, rfl⟩
  · rintro ⟨⟨typed, -⟩, rfl, -, format, rfl⟩
    cases keyDomain <;> cases creator <;> first | exact ⟨name, ⟨typed, rfl⟩, rfl⟩ | cases format

theorem reads_ownerDefault (partitions : Nat) :
    ReadsRest (decodeOwnerDefault partitions) (Layout ownerDefaultFormat partitions) := by
  have same : decodeOwnerDefault partitions = ((readLen >>= readNamed newPrincipal) >>=
      fun creator => (do readNamed TopicId.new (← get).remaining) >>= fun name =>
        pure ({ name, partitions, creator := some creator } : CatalogEntry)) := by
    simp only [decodeOwnerDefault, bind_assoc]
  rw [same]
  refine ((reads_lengthed makes_principal).bind_rest fun creator =>
    (reads_last makes_topic).map fun name =>
      ({ name, partitions, creator := some creator } : CatalogEntry)).congr fun entry bytes => ?_
  obtain ⟨name, partitions', keyDomain, creator⟩ := entry
  constructor
  · rintro ⟨creator, _, _, ⟨⟨nonempty, short⟩, rfl⟩, ⟨name, ⟨typed, rfl⟩, same⟩, rfl⟩
    cases same
    refine ⟨⟨typed, ?_⟩, rfl, short, rfl, rfl⟩
    rintro _ ⟨⟩
    exact nonempty
  · rintro ⟨⟨typed, nonempty⟩, rfl, fits, format, rfl⟩
    cases keyDomain with
    | customer key => cases creator <;> cases format
    | defaultDomain =>
      cases creator with
      | none => cases format
      | some creator =>
        exact ⟨creator, _, _, ⟨⟨nonempty creator rfl, fits⟩, rfl⟩, ⟨name, ⟨typed, rfl⟩, rfl⟩, rfl⟩

theorem reads_customer (partitions : Nat) :
    ReadsRest (decodeCustomer partitions) (Layout customerFormat partitions) := by
  have same : decodeCustomer partitions = ((do
      let pair ← decodeCustomerPrefix
      let cur ← get
      if cur.pos ≠ cur.buf.length then throw (.malformedMetadataSegment cur.pos) else return pair) >>=
        fun pair => pure ({ name := pair.1, partitions, keyDomain := pair.2 } : CatalogEntry)) := by
    simp only [decodeCustomer, bind_assoc]
    congr 1
    funext pair
    congr 1
    funext cur
    split
    · rfl
    · rfl
  rw [same]
  refine ((reads_customerPrefix.bind_ends fun cur => .malformedMetadataSegment cur.pos).map fun pair =>
    ({ name := pair.1, partitions, keyDomain := pair.2 } : CatalogEntry)).congr fun entry bytes => ?_
  obtain ⟨name, partitions', keyDomain, creator⟩ := entry
  constructor
  · rintro ⟨⟨_, _⟩, ⟨key, ⟨typed, short⟩, rfl, rfl⟩, same⟩
    cases same
    exact ⟨⟨typed, nofun⟩, rfl, short, rfl, rfl⟩
  · rintro ⟨⟨typed, -⟩, rfl, fits, format, rfl⟩
    cases keyDomain with
    | defaultDomain => cases creator <;> cases format
    | customer key =>
      cases creator with
      | some creator => cases format
      | none => exact ⟨(name, .customer key), ⟨key, ⟨typed, fits⟩, rfl, rfl⟩, rfl⟩

def ownedEntry (pair : TopicId × KeyDomain) (partitions : Nat) (creator : Principal) :
    CatalogEntry :=
  { name := pair.1, partitions, keyDomain := pair.2, creator := some creator }

theorem reads_ownerCustomer (partitions : Nat) :
    ReadsRest (decodeOwnerCustomer partitions) (Layout ownerCustomerFormat partitions) := by
  have creators (pair : TopicId × KeyDomain) (len : Nat) : ReadsRest (do
      let cur ← get
      if cur.pos + len ≠ cur.buf.length then throw (.malformedMetadataSegment (cur.pos + len))
      else readNamed newPrincipal len >>= fun creator =>
        pure (ownedEntry pair partitions creator)) fun entry bytes => ∃ creator : Principal,
          ((creator.isEmpty = false ∧ bytes = utf8 creator) ∧ bytes.length = len) ∧
            entry = ownedEntry pair partitions creator := by
    have named : Reads (readNamed newPrincipal len >>= fun creator =>
        pure (ownedEntry pair partitions creator)) fun entry bytes => ∃ creator : Principal,
          ((creator.isEmpty = false ∧ bytes = utf8 creator) ∧ bytes.length = len) ∧
            entry = ownedEntry pair partitions creator := by
      refine ((reads_named makes_principal len).bind fun creator => Reads.pure _).congr
        fun entry bytes => ?_
      constructor
      · rintro ⟨creator, _, _, found, ⟨rfl, rfl⟩, rfl⟩
        rw [List.append_nil]
        exact ⟨creator, found, rfl⟩
      · rintro ⟨creator, found, rfl⟩
        exact ⟨creator, _, _, found, ⟨rfl, rfl⟩, (List.append_nil _).symm⟩
    refine named.exactly ?_ fun cur => .malformedMetadataSegment (cur.pos + len)
    rintro entry bytes ⟨creator, ⟨-, length⟩, -⟩
    exact length
  refine (reads_customerPrefix.bind_rest fun pair =>
    (Reads.unsigned malformed 2).bind_rest (creators pair)).congr fun entry bytes => ?_
  obtain ⟨name, partitions', keyDomain, creator⟩ := entry
  constructor
  · rintro ⟨⟨_, _⟩, _, _, ⟨key, ⟨typed, short⟩, rfl, rfl⟩, ⟨_, _, _, ⟨small, rfl⟩,
      ⟨creator, ⟨⟨nonempty, rfl⟩, rfl⟩, same⟩, rfl⟩, rfl⟩
    cases same
    refine ⟨⟨typed, ?_⟩, rfl, ⟨short, small⟩, rfl, rfl⟩
    rintro _ ⟨⟩
    exact nonempty
  · rintro ⟨⟨typed, nonempty⟩, rfl, fits, format, rfl⟩
    cases keyDomain with
    | defaultDomain => cases creator <;> cases format
    | customer key =>
      cases creator with
      | none => cases format
      | some creator =>
        exact ⟨(name, .customer key), _, _, ⟨key, ⟨typed, fits.1⟩, rfl, rfl⟩, ⟨_, _, _,
          ⟨fits.2, rfl⟩, ⟨creator, ⟨⟨nonempty creator rfl, rfl⟩, rfl⟩, rfl⟩, rfl⟩, rfl⟩

theorem formatOf_cases (entry : CatalogEntry) : 1 ≤ formatOf entry ∧ formatOf entry ≤ 4 := by
  obtain ⟨name, partitions, keyDomain, creator⟩ := entry
  cases keyDomain <;> cases creator <;>
    simp [formatOf, defaultFormat, customerFormat, ownerDefaultFormat, ownerCustomerFormat]

theorem reads_entry : ReadsRest readEntry fun entry bytes =>
    Typed entry ∧ Fits entry ∧ bytes = image entry := by
  have formats (format partitions : Nat) : ReadsRest (match format with
      | 1 => decodeDefault partitions
      | 2 => decodeCustomer partitions
      | 3 => decodeOwnerDefault partitions
      | 4 => decodeOwnerCustomer partitions
      | _ => throw (.malformedMetadataSegment 0)) (Layout format partitions) := by
    match format with
    | 1 => exact reads_default partitions
    | 2 => exact reads_customer partitions
    | 3 => exact reads_ownerDefault partitions
    | 4 => exact reads_ownerCustomer partitions
    | 0 =>
      refine (ReadsRest.throw _).congr fun entry bytes => iff_of_false id ?_
      rintro ⟨-, -, -, format, -⟩
      have := formatOf_cases entry
      omega
    | format + 5 =>
      refine (ReadsRest.throw _).congr fun entry bytes => iff_of_false id ?_
      rintro ⟨-, -, -, format, -⟩
      have := formatOf_cases entry
      omega
  refine ((Reads.unsigned malformed 1).bind_rest fun format =>
    (Reads.unsigned malformed 4).bind_rest (formats format)).congr fun entry bytes => ?_
  constructor
  · rintro ⟨_, _, _, ⟨-, rfl⟩, ⟨_, _, _, ⟨small, rfl⟩, ⟨⟨typed, nonempty⟩, rfl, fits, rfl, rfl⟩, rfl⟩,
      rfl⟩
    exact ⟨⟨typed, small, nonempty⟩, fits, rfl⟩
  · rintro ⟨⟨typed, small, nonempty⟩, fits, rfl⟩
    have formats := formatOf_cases entry
    exact ⟨_, _, _, ⟨by omega, rfl⟩, ⟨_, _, _, ⟨small, rfl⟩,
      ⟨⟨typed, nonempty⟩, rfl, fits, rfl, rfl⟩, rfl⟩, rfl⟩

theorem decode_eq_ok {bytes : List UInt8} {entry : CatalogEntry} :
    decode bytes = .ok entry ↔ Typed entry ∧ Fits entry ∧ bytes = image entry := by
  rw [decode, Checked.bind_eq_ok]
  have whole (cur : Cursor) := reads_entry ⟨bytes, 0⟩ entry cur (Nat.zero_le _)
  constructor
  · rintro ⟨⟨read, cur⟩, ran, h⟩
    cases h
    exact ((whole cur).mp ran).1
  · intro found
    exact ⟨(entry, _), (whole _).mpr ⟨found, rfl⟩, rfl⟩

end Oqueue.Broker.StoredCatalog
