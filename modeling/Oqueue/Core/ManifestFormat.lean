import Oqueue.Core.FooterFormat
import Oqueue.Core.PartitionManifest
import Oqueue.Library.Trailer

/-!
# The partition manifest is canonical

What a builder seals is what the parser reads back, and the parser accepts nothing else.
A list of entries is one the builder takes exactly when the parser's own check passes it:
each names a new object and begins where the one before it ends.
-/

namespace Oqueue

open Bytes Checked Reader Format Segment Tiling Trailer

structure PartitionManifestBuilder where
  entries : List ManifestEntry := []
  previous : Option ObjectKey := none

namespace PartitionManifestBuilder

def spillingFrom (self : PartitionManifestBuilder) (previous : ObjectKey) :
    PartitionManifestBuilder := { self with previous := some previous }

def add (self : PartitionManifestBuilder) (entry : ManifestEntry) : PartitionManifestBuilder :=
  { self with entries := self.entries ++ [entry] }

def push (self : PartitionManifestBuilder) (entry : ManifestEntry) :
    Except Error PartitionManifestBuilder :=
  if self.entries.any fun held => held.object == entry.object then .error .indexObjectMismatch
  else match self.entries.getLast? with
    | none => .ok (self.add entry)
    | some last => do
      if (← last.endOffset) ≠ entry.baseOffset then .error .indexObjectMismatch
      else .ok (self.add entry)

end PartitionManifestBuilder

def PartitionManifestBuilder.seal (self : PartitionManifestBuilder) : Except Error (List UInt8) :=
  PartitionManifest.seal ⟨self.entries, self.previous⟩

/-- An entry that may follow those held: its object is new and it leaves no gap. -/
def Continues (held : List ManifestEntry) (entry : ManifestEntry) : Prop :=
  (∀ other ∈ held, other.object ≠ entry.object) ∧
    ∀ last, held.getLast? = some last → last.endOffset = .ok entry.baseOffset

theorem new_object_iff {held : List ManifestEntry} {entry : ManifestEntry} :
    ¬ (held.any fun other => other.object == entry.object) = true ↔
      ∀ other ∈ held, other.object ≠ entry.object := by
  simp

theorem checkFollows_eq_ok {held : List ManifestEntry} {entry : ManifestEntry} {at_ : Nat} :
    checkFollows held entry at_ = .ok () ↔ Continues held entry := by
  unfold checkFollows Continues
  by_cases repeated : (held.any fun other => other.object == entry.object) = true
  · rw [if_pos repeated]
    exact iff_of_false nofun fun h => new_object_iff.mpr h.1 repeated
  · rw [if_neg repeated]
    have fresh := new_object_iff.mp repeated
    cases last : held.getLast? with
    | none => exact iff_of_true rfl ⟨fresh, nofun⟩
    | some last =>
      simp only [Option.some.injEq, forall_eq', Checked.bind_eq_ok]
      constructor
      · rintro ⟨stop, ends, h⟩
        split at h
        · cases h
        · rename_i meets
          rw [ends, not_not.mp meets]
          exact ⟨fresh, rfl⟩
      · rintro ⟨-, ends⟩
        exact ⟨_, ends, if_neg (not_not.mpr rfl)⟩

theorem PartitionManifestBuilder.push_eq_ok {builder after : PartitionManifestBuilder}
    {entry : ManifestEntry} : builder.push entry = .ok after ↔
      Continues builder.entries entry ∧ after = builder.add entry := by
  unfold push Continues
  by_cases repeated : (builder.entries.any fun other => other.object == entry.object) = true
  · rw [if_pos repeated]
    exact iff_of_false nofun fun h => new_object_iff.mpr h.1.1 repeated
  · rw [if_neg repeated]
    have fresh := new_object_iff.mp repeated
    cases last : builder.entries.getLast? with
    | none =>
      rw [Except.ok.injEq, eq_comm]
      exact (and_iff_right ⟨fresh, nofun⟩).symm
    | some last =>
      simp only [Option.some.injEq, forall_eq', Checked.bind_eq_ok]
      constructor
      · rintro ⟨stop, ends, h⟩
        split at h
        · cases h
        · rename_i meets
          cases h
          rw [ends, not_not.mp meets]
          exact ⟨⟨fresh, rfl⟩, rfl⟩
      · rintro ⟨⟨-, ends⟩, rfl⟩
        exact ⟨_, ends, if_neg (not_not.mpr rfl)⟩

theorem PartitionManifestBuilder.pushed_eq_ok {entries : List ManifestEntry}
    {builder after : PartitionManifestBuilder} : entries.foldlM push builder = .ok after ↔
      Grows Continues builder.entries entries ∧
        after = ⟨builder.entries ++ entries, builder.previous⟩ := by
  have folded : entries.foldl add builder = ⟨builder.entries ++ entries, builder.previous⟩ := by
    induction entries generalizing builder with
    | nil => rw [List.append_nil, List.foldl_nil]
    | cons entry rest ih => rw [List.foldl_cons, ih, add, List.append_assoc, List.singleton_append]
  rw [← folded]
  exact foldlM_eq_ok_iff_grows PartitionManifestBuilder.entries
    (fun _ _ _ => push_eq_ok) (fun _ _ => rfl) entries builder after

/-- What the entry's constructor and the types of its fields say of it. -/
structure ManifestEntry.Typed (entry : ManifestEntry) : Prop where
  object : entry.object.Typed
  baseOffset : entry.baseOffset < 2 ^ 63
  recordCount : entry.recordCount < 2 ^ 32 ∧ entry.recordCount ≠ 0
  bytes : entry.bytes.Typed ∧ entry.bytes ≠ .full

theorem ManifestEntry.new_eq_ok_iff {object : ObjectKey} {baseOffset recordCount : Nat}
    {bytes : ByteRange} {entry : ManifestEntry} :
    ManifestEntry.new object baseOffset recordCount bytes = .ok entry ↔
      entry = ⟨object, baseOffset, recordCount, bytes⟩ ∧ recordCount ≠ 0 ∧ bytes ≠ .full := by
  unfold ManifestEntry.new
  by_cases none : recordCount = 0
  · rw [if_pos none]
    exact iff_of_false nofun fun h => h.2.1 none
  · rw [if_neg none]
    by_cases full : bytes = .full
    · rw [if_pos full]
      exact iff_of_false nofun fun h => h.2.2 full
    · rw [if_neg full, Except.ok.injEq, eq_comm]
      exact (and_iff_left ⟨none, full⟩).symm

theorem ObjectKey.new_eq_ok {name : String} {object : ObjectKey} :
    ObjectKey.new name = .ok object ↔ object.key = name ∧ object.Typed := by
  obtain ⟨held⟩ := object
  unfold ObjectKey.new ObjectKey.Typed
  cases empty : name.isEmpty with
  | true =>
    refine iff_of_false nofun ?_
    rintro ⟨rfl, named⟩
    exact absurd (empty.symm.trans named) (by decide)
  | false =>
    constructor
    · intro h
      cases h
      exact ⟨rfl, empty⟩
    · rintro ⟨rfl, -⟩
      rfl

theorem ObjectKey.Typed.length_ne_zero {object : ObjectKey} (typed : object.Typed) :
    (utf8 object.key).length ≠ 0 := by
  intro none
  have empty : object.key.utf8ByteSize = 0 := none
  rw [String.utf8ByteSize_eq_zero_iff] at empty
  rw [ObjectKey.Typed, empty] at typed
  cases typed

namespace Manifest

def keyText (key : Option ObjectKey) : String := key.elim "" ObjectKey.key

def entryImage (entry : ManifestEntry) : List UInt8 :=
  strImage entry.object.key ++ (toBeBytes 8 entry.baseOffset ++ (toBeBytes 4 entry.recordCount ++
    Footer.boundsImage entry.bytes))

def bodyImage (manifest : PartitionManifest) : List UInt8 :=
  strImage (keyText manifest.previous) ++ manifest.entries.flatMap entryImage

def image (manifest : PartitionManifest) : List UInt8 :=
  bodyImage manifest ++ trailerImage partitionManifestVersion manifest.entries.length
    (bodyImage manifest).length partitionManifestMagic

/-- Every key and the whole are short enough for their length fields. -/
structure Fits (manifest : PartitionManifest) : Prop where
  previous : Short (keyText manifest.previous)
  objects : ∀ entry ∈ manifest.entries, Short entry.object.key
  body : (bodyImage manifest).length < 2 ^ 32
  count : manifest.entries.length < 2 ^ 32

theorem encodeManifestKey_eq_ok {key : Option ObjectKey} {bytes : List UInt8} :
    encodeManifestKey key = .ok bytes ↔ Short (keyText key) ∧ bytes = strImage (keyText key) := by
  unfold encodeManifestKey
  change (if (utf8 (keyText key)).length < 2 ^ 16 then Except.ok (strImage (keyText key))
    else Except.error Error.bundleTooLarge) = .ok bytes ↔ _
  by_cases short : (utf8 (keyText key)).length < 2 ^ 16
  · rw [if_pos short, Except.ok.injEq, eq_comm]
    exact (and_iff_right short).symm
  · rw [if_neg short]
    exact iff_of_false nofun fun h => short h.1

theorem encodeManifestEntry_eq_ok {entry : ManifestEntry} {bytes : List UInt8} :
    encodeManifestEntry entry = .ok bytes ↔
      (Short entry.object.key ∧ entry.bytes ≠ .full) ∧ bytes = entryImage entry := by
  unfold encodeManifestEntry
  rw [Checked.bind_eq_ok]
  obtain ⟨object, baseOffset, recordCount, range⟩ := entry
  cases range with
  | full =>
    refine iff_of_false ?_ fun h => h.1.2 rfl
    rintro ⟨_, -, h⟩
    cases h
  | bounded offset length =>
    constructor
    · rintro ⟨key, hkey, h⟩
      obtain ⟨short, rfl⟩ := encodeManifestKey_eq_ok.mp hkey
      cases h
      exact ⟨⟨short, nofun⟩, by simp [entryImage, keyText, Footer.boundsImage]⟩
    · rintro ⟨⟨short, -⟩, rfl⟩
      exact ⟨_, encodeManifestKey_eq_ok.mpr ⟨short, rfl⟩,
        by simp [entryImage, keyText, Footer.boundsImage, pure, Except.pure]⟩

theorem encodeEntries_eq_ok {entries : List ManifestEntry} {parts : List (List UInt8)} :
    entries.mapM encodeManifestEntry = .ok parts ↔
      (∀ entry ∈ entries, Short entry.object.key ∧ entry.bytes ≠ .full) ∧
        parts = entries.map entryImage := by
  induction entries generalizing parts with
  | nil =>
    rw [List.mapM_nil]
    constructor
    · intro h
      cases h
      exact ⟨nofun, rfl⟩
    · rintro ⟨-, rfl⟩
      rfl
  | cons entry rest ih =>
    rw [List.mapM_cons, Checked.bind_eq_ok]
    constructor
    · rintro ⟨first, hfirst, h⟩
      obtain ⟨others, hothers, h⟩ := Checked.bind_eq_ok.mp h
      obtain ⟨here, rfl⟩ := encodeManifestEntry_eq_ok.mp hfirst
      obtain ⟨there, rfl⟩ := ih.mp hothers
      cases h
      exact ⟨List.forall_mem_cons.mpr ⟨here, there⟩, rfl⟩
    · rintro ⟨all, rfl⟩
      obtain ⟨here, there⟩ := List.forall_mem_cons.mp all
      exact ⟨_, encodeManifestEntry_eq_ok.mpr ⟨here, rfl⟩,
        Checked.bind_eq_ok.mpr ⟨_, ih.mpr ⟨there, rfl⟩, rfl⟩⟩

theorem seal_eq_ok {manifest : PartitionManifest} {bytes : List UInt8} :
    manifest.seal = .ok bytes ↔ (manifest.entries ≠ [] ∧
      (∀ entry ∈ manifest.entries, entry.bytes ≠ .full) ∧ Fits manifest) ∧
        bytes = image manifest := by
  unfold PartitionManifest.seal
  by_cases none : manifest.entries.isEmpty = true
  · rw [if_pos none]
    exact iff_of_false nofun fun h => h.1.1 (List.isEmpty_iff.mp none)
  rw [if_neg none]
  have some : manifest.entries ≠ [] := fun empty => none (List.isEmpty_iff.mpr empty)
  have body : strImage (keyText manifest.previous) ++ (manifest.entries.map entryImage).flatten =
      bodyImage manifest := rfl
  simp only [Checked.bind_eq_ok]
  constructor
  · rintro ⟨previous, hprevious, parts, hparts, h⟩
    obtain ⟨short, rfl⟩ := encodeManifestKey_eq_ok.mp hprevious
    obtain ⟨all, rfl⟩ := encodeEntries_eq_ok.mp hparts
    rw [body] at h
    split at h
    · cases h
    · rename_i fits
      cases h
      refine ⟨⟨some, fun e h => (all e h).2, ⟨short, fun e h => (all e h).1, ?_, ?_⟩⟩, ?_⟩
      · exact Nat.not_le.mp fun wide => fits (.inl wide)
      · exact Nat.not_le.mp fun many => fits (.inr many)
      · simp [image, trailerImage]
  · rintro ⟨⟨-, bounded, fits⟩, rfl⟩
    refine ⟨_, encodeManifestKey_eq_ok.mpr ⟨fits.previous, rfl⟩, _,
      encodeEntries_eq_ok.mpr ⟨fun e h => ⟨fits.objects e h, bounded e h⟩, rfl⟩, ?_⟩
    rw [body, if_neg (by have := fits.body; have := fits.count; omega)]
    simp [image, trailerImage, pure, Except.pure]

theorem reads_text (len : Nat) : Reads (readString len) fun text bytes =>
    (utf8 text).length = len ∧ bytes = utf8 text :=
  Reads.get_bind fun _ => reads_utf8 malformedManifest _ len

theorem reads_object (len : Nat) :
    Reads (readString len >>= fun text => (ObjectKey.new text : Except Error ObjectKey))
      fun object bytes => (object.Typed ∧ (utf8 object.key).length = len) ∧
        bytes = utf8 object.key := by
  refine ((reads_text len).bind fun text => Reads.check (x := ObjectKey.new text)).congr
    fun object bytes => ?_
  constructor
  · rintro ⟨text, _, _, ⟨length, rfl⟩, ⟨made, rfl⟩, rfl⟩
    obtain ⟨rfl, typed⟩ := ObjectKey.new_eq_ok.mp made
    exact ⟨⟨typed, length⟩, List.append_nil _⟩
  · rintro ⟨⟨typed, length⟩, rfl⟩
    exact ⟨_, _, _, ⟨length, rfl⟩, ⟨ObjectKey.new_eq_ok.mpr ⟨rfl, typed⟩, rfl⟩,
      (List.append_nil _).symm⟩

theorem reads_previous : Reads decodeOptionalKey fun key bytes =>
    ((∀ object, key = some object → object.Typed) ∧ Short (keyText key)) ∧
      bytes = strImage (keyText key) := by
  refine ((Reads.unsigned malformedManifest 2).bind (G := fun len key bytes =>
    (len = 0 ∧ key = none ∧ bytes = []) ∨ (len ≠ 0 ∧ ∃ object, key = some object ∧ object.Typed ∧
      (utf8 object.key).length = len ∧ bytes = utf8 object.key)) fun len => ?_).congr
        fun key bytes => ?_
  · by_cases none : len = 0
    · rw [if_pos none]
      refine (Reads.pure _).congr fun key bytes => ?_
      simp [none]
    · rw [if_neg none]
      refine (Reads.reassoc ((reads_object len).bind fun object => Reads.pure (some object))).congr
        fun key bytes => ?_
      constructor
      · rintro ⟨object, _, _, ⟨⟨typed, length⟩, rfl⟩, ⟨rfl, rfl⟩, rfl⟩
        exact .inr ⟨none, object, rfl, typed, length, List.append_nil _⟩
      · rintro (⟨zero, -⟩ | ⟨-, object, rfl, typed, length, rfl⟩)
        · exact absurd zero none
        · exact ⟨object, _, _, ⟨⟨typed, length⟩, rfl⟩, ⟨rfl, rfl⟩, (List.append_nil _).symm⟩
  · constructor
    · rintro ⟨_, _, _, ⟨small, rfl⟩, ⟨rfl, rfl, rfl⟩ | ⟨-, object, rfl, typed, rfl, rfl⟩, rfl⟩
      · exact ⟨⟨nofun, small⟩, rfl⟩
      · refine ⟨⟨?_, small⟩, rfl⟩
        rintro _ ⟨⟩
        exact typed
    · rintro ⟨⟨typed, short⟩, rfl⟩
      cases key with
      | none => exact ⟨0, _, [], ⟨by decide, rfl⟩, .inl ⟨rfl, rfl, rfl⟩, rfl⟩
      | some object =>
        have typed := typed object rfl
        exact ⟨_, _, _, ⟨short, rfl⟩, .inr ⟨typed.length_ne_zero, object, rfl, typed, rfl, rfl⟩, rfl⟩

theorem reads_base : Reads (signed malformedManifest 8 >>= fun raw =>
    (Offset.new raw : Except Error Nat)) fun value bytes =>
      value < 2 ^ 63 ∧ bytes = toBeBytes 8 value :=
  reads_constructed (fun _ => Reads.check) malformedManifest (fun _ => rfl) (by decide)

theorem reads_entry : Reads decodeManifestEntry fun entry bytes =>
    (entry.Typed ∧ Short entry.object.key) ∧ bytes = entryImage entry := by
  have fields (len : Nat) := (reads_object len).bind fun object => Reads.reassoc (reads_base.bind
    fun baseOffset => (Reads.unsigned malformedManifest 4).bind fun recordCount =>
      (Reads.unsigned malformedManifest 8).bind fun offset => (Reads.unsigned malformedManifest 8).bind
        fun length => (Reads.check (x := ByteRange.new offset length)).bind fun range =>
          Reads.check (x := ManifestEntry.new object baseOffset recordCount range))
  unfold decodeManifestEntry
  apply Reads.get_bind
  intro cur
  refine ((Reads.unsigned malformedManifest 2).bind (G := fun len entry bytes =>
    len ≠ 0 ∧ (entry.Typed ∧ (utf8 entry.object.key).length = len) ∧
      bytes = utf8 entry.object.key ++ (toBeBytes 8 entry.baseOffset ++
        (toBeBytes 4 entry.recordCount ++ Footer.boundsImage entry.bytes))) fun len => ?_).congr
          fun entry bytes => ?_
  · by_cases none : len = 0
    · rw [if_pos none]
      exact (Reads.throw _).congr fun entry bytes => iff_of_false id fun h => h.1 none
    · rw [if_neg none]
      refine (Reads.reassoc (fields len)).congr fun entry bytes => ?_
      constructor
      · rintro ⟨object, _, _, ⟨⟨typed, long⟩, rfl⟩, ⟨baseOffset, _, _, ⟨hbase, rfl⟩, ⟨recordCount, _,
          _, ⟨hcount, rfl⟩, ⟨offset, _, _, ⟨hoffset, rfl⟩, ⟨length, _, _, ⟨hlength, rfl⟩, ⟨range, _, _,
          ⟨hrange, rfl⟩, ⟨made, rfl⟩, rfl⟩, rfl⟩, rfl⟩, rfl⟩, rfl⟩, rfl⟩
        obtain ⟨rfl, nonzero⟩ := ByteRange.new_eq_ok.mp hrange
        obtain ⟨rfl, counts, bounded⟩ := ManifestEntry.new_eq_ok_iff.mp made
        exact ⟨none, ⟨⟨typed, hbase, ⟨hcount, counts⟩, ⟨⟨hoffset, hlength⟩, nonzero⟩, bounded⟩, long⟩,
          by simp [Footer.boundsImage]⟩
      · rintro ⟨-, ⟨⟨typed, hbase, ⟨hcount, counts⟩, hrange, bounded⟩, long⟩, rfl⟩
        obtain ⟨object, baseOffset, recordCount, range⟩ := entry
        cases range with
        | full => exact absurd rfl bounded
        | bounded offset length =>
          obtain ⟨⟨hoffset, hlength⟩, nonzero⟩ := hrange
          exact ⟨object, _, _, ⟨⟨typed, long⟩, rfl⟩, ⟨baseOffset, _, _, ⟨hbase, rfl⟩, ⟨recordCount, _,
            _, ⟨hcount, rfl⟩, ⟨offset, _, _, ⟨hoffset, rfl⟩, ⟨length, _, _, ⟨hlength, rfl⟩, ⟨_, _, _,
            ⟨ByteRange.new_eq_ok.mpr ⟨rfl, nonzero⟩, rfl⟩,
            ⟨ManifestEntry.new_eq_ok_iff.mpr ⟨rfl, counts, bounded⟩, rfl⟩, rfl⟩, rfl⟩, rfl⟩, rfl⟩,
            rfl⟩, by simp [Footer.boundsImage]⟩
  · constructor
    · rintro ⟨_, _, _, ⟨small, rfl⟩, ⟨-, ⟨typed, rfl⟩, rfl⟩, rfl⟩
      exact ⟨⟨typed, small⟩, by simp [entryImage, strImage]⟩
    · rintro ⟨⟨typed, short⟩, rfl⟩
      exact ⟨_, _, _, ⟨short, rfl⟩, ⟨typed.object.length_ne_zero, ⟨typed, rfl⟩, rfl⟩,
        by simp [entryImage, strImage]⟩

theorem decodeEntries_eq (count : Nat) (entries : List ManifestEntry) :
    decodeEntries count entries = gather decodeManifestEntry checkFollows count entries := by
  induction count generalizing entries with
  | zero => rfl
  | succ count ih =>
    unfold decodeEntries gather
    simp only [ih]

theorem reads_entries (count : Nat) : Reads (decodeEntries count []) fun entries bytes =>
    ((entries.length = count ∧ ∀ entry ∈ entries, entry.Typed ∧ Short entry.object.key) ∧
      Grows Continues [] entries) ∧ bytes = entries.flatMap entryImage := by
  rw [decodeEntries_eq]
  have checks (held : List ManifestEntry) (entry : ManifestEntry) (at_ : Nat) :
      checkFollows held entry at_ = .ok () ↔ Continues held entry := checkFollows_eq_ok
  refine (Reads.gather reads_entry checks count []).congr fun entries bytes => ?_
  simp [and_assoc]

theorem reads_manifest (count : Nat) : Reads (do
    let previous ← decodeOptionalKey
    let entries ← decodeEntries count []
    return (⟨entries, previous⟩ : PartitionManifest)) fun manifest bytes =>
      ((∀ object, manifest.previous = some object → object.Typed) ∧
        Short (keyText manifest.previous) ∧ manifest.entries.length = count ∧
        (∀ entry ∈ manifest.entries, entry.Typed ∧ Short entry.object.key) ∧
        Grows Continues [] manifest.entries) ∧ bytes = bodyImage manifest := by
  refine (reads_previous.bind fun previous => (reads_entries count).bind fun entries =>
    Reads.pure (⟨entries, previous⟩ : PartitionManifest)).congr fun manifest bytes => ?_
  constructor
  · rintro ⟨previous, _, _, ⟨⟨typed, short⟩, rfl⟩, ⟨entries, _, _, ⟨⟨⟨length, all⟩, grows⟩, rfl⟩,
      ⟨rfl, rfl⟩, rfl⟩, rfl⟩
    exact ⟨⟨typed, short, length, all, grows⟩, by simp [bodyImage]⟩
  · rintro ⟨⟨typed, short, length, all, grows⟩, rfl⟩
    exact ⟨manifest.previous, _, _, ⟨⟨typed, short⟩, rfl⟩, ⟨manifest.entries, _, _,
      ⟨⟨⟨length, all⟩, grows⟩, rfl⟩, ⟨rfl, rfl⟩, rfl⟩, by simp [bodyImage]⟩

theorem decodeBody_eq_ok {count : Nat} {body : List UInt8} {manifest : PartitionManifest}
    {cur : Cursor} : (decodeBody count body.length).run { buf := body } = .ok (manifest, cur) ↔
      (((∀ object, manifest.previous = some object → object.Typed) ∧
        Short (keyText manifest.previous) ∧ manifest.entries.length = count ∧
        (∀ entry ∈ manifest.entries, entry.Typed ∧ Short entry.object.key) ∧
        Grows Continues [] manifest.entries) ∧ body = bodyImage manifest) ∧
      cur = ⟨body, body.length⟩ := by
  rw [← (reads_manifest count).ends fun cur => .malformedPartitionManifest cur.pos]
  simp only [decodeBody, bind_assoc, pure_bind]

/-- What the parser asks of a manifest, apart from its bytes. -/
structure Valid (manifest : PartitionManifest) : Prop where
  inhabited : manifest.entries ≠ []
  typed : ∀ entry ∈ manifest.entries, entry.Typed
  previous : ∀ object, manifest.previous = some object → object.Typed
  continues : Grows Continues [] manifest.entries

theorem parsePartitionManifest_eq (bytes : List UInt8) : parsePartitionManifest bytes =
    Trailer.parse (.malformedPartitionManifest 0) .notAPartitionManifest .emptyBundle
      .malformedPartitionManifest decodeTrailer partitionManifestMagic decodeBody bytes := rfl

theorem parse_eq_ok {bytes : List UInt8} {manifest : PartitionManifest} :
    parsePartitionManifest bytes = .ok manifest ↔
      (Valid manifest ∧ Fits manifest) ∧ bytes = image manifest := by
  have trailer : Reads decodeTrailer (Trails partitionManifestVersion) :=
    reads_trailer malformedManifest (by decide) .unknownPartitionManifestVersion
  have four : partitionManifestMagic.length = 4 := rfl
  rw [parsePartitionManifest_eq,
    Trailer.parse_eq_ok _ _ _ _ four trailer fun _ _ _ _ => decodeBody_eq_ok]
  constructor
  · rintro ⟨_, _, some, ⟨counts, short⟩, ⟨⟨previous, name, rfl, all, grows⟩, rfl⟩, rfl⟩
    exact ⟨⟨⟨fun none => some (by rw [none]; rfl), fun e h => (all e h).1, previous, grows⟩,
      ⟨name, fun e h => (all e h).2, short, counts⟩⟩, rfl⟩
  · rintro ⟨⟨valid, fits⟩, rfl⟩
    exact ⟨manifest.entries.length, bodyImage manifest,
      fun none => valid.inhabited (List.length_eq_zero_iff.mp none), ⟨fits.count, fits.body⟩,
      ⟨⟨valid.previous, fits.previous, rfl, fun e h => ⟨valid.typed e h, fits.objects e h⟩,
        valid.continues⟩, rfl⟩, rfl⟩

end Manifest

def ManifestEntry.Holds (entry : ManifestEntry) (offset : Nat) : Prop :=
  entry.baseOffset ≤ offset ∧ offset < entry.stop

theorem ManifestEntry.Holds.unique {entries : List ManifestEntry} {low high offset i j : Nat}
    (tiles : EntryTiles entries low high) {entry other : ManifestEntry}
    (here : entries[i]? = some entry) (there : entries[j]? = some other)
    (holds : entry.Holds offset) (also : other.Holds offset) : i = j := by
  have apart {i j : Nat} {entry other : ManifestEntry} (lt : i < j) (here : entries[i]? = some entry)
      (there : entries[j]? = some other) : entry.stop ≤ other.baseOffset := by
    obtain ⟨hi, rfl⟩ := List.getElem?_eq_some_iff.mp here
    obtain ⟨hj, rfl⟩ := List.getElem?_eq_some_iff.mp there
    exact List.pairwise_iff_getElem.mp tiles.pairwise i j hi hj lt
  unfold ManifestEntry.Holds at holds also
  rcases Nat.lt_trichotomy i j with before | same | after
  · have := apart before here there
    omega
  · exact same
  · have := apart after there here
    omega

theorem PartitionManifest.position_iff {manifest : PartitionManifest} {low high : Nat}
    (tiles : EntryTiles manifest.entries low high) (offset i : Nat) :
    manifest.position offset = some i ↔ ∃ entry, manifest.entries[i]? = some entry ∧
      entry.Holds offset ∧ entry.stop ≤ i64Max := by
  constructor
  · intro found
    obtain ⟨entry, here, holds⟩ := position_eq_some found
    obtain ⟨same, there, fits⟩ := position_reaches found
    obtain rfl := Option.some.inj (here.symm.trans there)
    exact ⟨entry, here, holds, fits⟩
  · rintro ⟨entry, here, holds, fits⟩
    obtain ⟨j, found⟩ := position_of_holds tiles (List.mem_of_getElem? here) holds fits
    obtain ⟨other, there, also⟩ := position_eq_some found
    rw [found, ManifestEntry.Holds.unique tiles here there holds also]

/-- What a builder seals reads back as what it was given; what is read is what a builder seals,
its entries leave no gap, and an offset is found in the one entry that holds it, if that entry
ends at an offset. -/
theorem manifest_sealed_exactly (bytes : List UInt8) :
    (∀ entries previous builder, (∀ entry ∈ entries, entry.Typed) →
      (∀ object, previous = some object → object.Typed) →
      entries.foldlM PartitionManifestBuilder.push ⟨[], previous⟩ = .ok builder →
      builder.seal = .ok bytes → parsePartitionManifest bytes = .ok ⟨entries, previous⟩) ∧
    ∀ manifest, parsePartitionManifest bytes = .ok manifest →
      (∃ builder, manifest.entries.foldlM PartitionManifestBuilder.push ⟨[], manifest.previous⟩ =
        .ok builder ∧ builder.seal = .ok bytes) ∧
      (∃ low high, EntryTiles manifest.entries low high) ∧
      (∀ offset i, manifest.position offset = some i ↔ ∃ entry, manifest.entries[i]? = some entry ∧
        entry.Holds offset ∧ entry.stop ≤ i64Max) ∧
      ∀ (offset i j : Nat) (entry other : ManifestEntry), manifest.entries[i]? = some entry →
        manifest.entries[j]? = some other → entry.Holds offset → other.Holds offset → i = j := by
  constructor
  · intro entries previous builder typed named pushed sealed
    obtain ⟨grows, rfl⟩ := PartitionManifestBuilder.pushed_eq_ok.mp pushed
    obtain ⟨⟨inhabited, -, fits⟩, rfl⟩ := Manifest.seal_eq_ok.mp sealed
    exact Manifest.parse_eq_ok.mpr ⟨⟨⟨inhabited, typed, named, grows⟩, fits⟩, rfl⟩
  · intro manifest parsed
    obtain ⟨⟨valid, fits⟩, here⟩ := Manifest.parse_eq_ok.mp parsed
    obtain ⟨-, low, high, tiles⟩ := parsePartitionManifest_tiles parsed
    refine ⟨⟨⟨manifest.entries, manifest.previous⟩, ?_, ?_⟩, ⟨low, high, tiles⟩,
      PartitionManifest.position_iff tiles, ?_⟩
    · exact PartitionManifestBuilder.pushed_eq_ok.mpr ⟨valid.continues, rfl⟩
    · exact Manifest.seal_eq_ok.mpr
        ⟨⟨valid.inhabited, fun entry h => (valid.typed entry h).bytes.2, fits⟩, here⟩
    · intro offset i j entry other hentry hother holds also
      exact ManifestEntry.Holds.unique tiles hentry hother holds also

def lastOffset : PartitionManifest := ⟨[⟨⟨"a"⟩, i64Max, 1, .bounded 0 32⟩], none⟩

theorem lastOffset_valid : Manifest.Valid lastOffset ∧ Manifest.Fits lastOffset := by
  have typed : ManifestEntry.Typed ⟨⟨"a"⟩, i64Max, 1, .bounded 0 32⟩ :=
    ⟨(by decide : "a".isEmpty = false), by decide, by decide, ⟨by decide, by decide⟩, nofun⟩
  refine ⟨⟨by decide, List.forall_mem_singleton.mpr typed, nofun, ⟨⟨nofun, nofun⟩, trivial⟩⟩,
    ⟨by decide, List.forall_mem_singleton.mpr (by decide), by decide +kernel, by decide⟩⟩

/-- A record the manifest covers is not found. -/
theorem last_offset_unfound : ∃ bytes manifest, parsePartitionManifest bytes = .ok manifest ∧
    (∃ entry ∈ manifest.entries, entry.Holds i64Max) ∧ manifest.position i64Max = none := by
  refine ⟨Manifest.image lastOffset, lastOffset, Manifest.parse_eq_ok.mpr ⟨lastOffset_valid, rfl⟩,
    ⟨_, List.mem_singleton_self _, ?_⟩, by decide⟩
  exact ⟨Nat.le_refl _, Nat.lt_succ_self _⟩

/-- Two objects' records, one after the other's, and the manifest spilled before. -/
def chained : PartitionManifest :=
  ⟨[⟨⟨"a"⟩, 5, 3, .bounded 0 32⟩, ⟨⟨"b"⟩, 8, 2, .bounded 16 32⟩], some ⟨"m0"⟩⟩

theorem chained_valid : Manifest.Valid chained ∧ Manifest.Fits chained := by
  have first : ManifestEntry.Typed ⟨⟨"a"⟩, 5, 3, .bounded 0 32⟩ :=
    ⟨(by decide : "a".isEmpty = false), by decide, by decide, ⟨by decide, by decide⟩, nofun⟩
  have second : ManifestEntry.Typed ⟨⟨"b"⟩, 8, 2, .bounded 16 32⟩ :=
    ⟨(by decide : "b".isEmpty = false), by decide, by decide, ⟨by decide, by decide⟩, nofun⟩
  have follows : Continues [⟨⟨"a"⟩, 5, 3, .bounded 0 32⟩] ⟨⟨"b"⟩, 8, 2, .bounded 16 32⟩ := by
    refine ⟨List.forall_mem_singleton.mpr (by decide), ?_⟩
    rintro _ ⟨⟩
    rfl
  refine ⟨⟨by decide, ?_, ?_, ⟨nofun, nofun⟩, follows, trivial⟩,
    ⟨by decide, ?_, by decide +kernel, by decide⟩⟩
  · exact List.forall_mem_cons.mpr ⟨first, List.forall_mem_singleton.mpr second⟩
  · rintro _ ⟨⟩
    exact (by decide : "m0".isEmpty = false)
  · exact List.forall_mem_cons.mpr ⟨by decide, List.forall_mem_singleton.mpr (by decide)⟩

theorem manifest_sealed_exactly_chained : ∃ bytes builder,
    chained.entries.foldlM PartitionManifestBuilder.push
        (PartitionManifestBuilder.spillingFrom {} ⟨"m0"⟩) = .ok builder ∧
      builder.seal = .ok bytes ∧ parsePartitionManifest bytes = .ok chained ∧
      chained.position 7 = some 0 ∧ chained.position 8 = some 1 := by
  have valid := chained_valid.1
  have sealed : chained.seal = .ok (Manifest.image chained) := Manifest.seal_eq_ok.mpr
    ⟨⟨valid.inhabited, fun entry h => (valid.typed entry h).bytes.2, chained_valid.2⟩, rfl⟩
  have pushed : chained.entries.foldlM PartitionManifestBuilder.push ⟨[], some ⟨"m0"⟩⟩ =
      .ok ⟨chained.entries, some ⟨"m0"⟩⟩ :=
    PartitionManifestBuilder.pushed_eq_ok.mpr ⟨valid.continues, rfl⟩
  have sealed_exactly := manifest_sealed_exactly (Manifest.image chained)
  have parsed := sealed_exactly.1 _ _ _ valid.typed valid.previous pushed sealed
  obtain ⟨-, -, found, -⟩ := sealed_exactly.2 _ parsed
  refine ⟨_, _, pushed, sealed, parsed, (found 7 0).mpr ?_, (found 8 1).mpr ?_⟩
  · exact ⟨_, rfl, ⟨by decide, by decide⟩, by decide⟩
  · exact ⟨_, rfl, ⟨by decide, by decide⟩, by decide⟩

end Oqueue
