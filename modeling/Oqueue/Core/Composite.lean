import Oqueue.Core.BundleReads
import Oqueue.Core.ManifestFormat

/-!
# Composite objects

An object that lists other objects and the regions each of them holds, so that many
objects count as one and no record moves. What a builder seals is read back whole, and a
partition's records are found in every object that has some.
-/

namespace Oqueue

open Bytes Checked Reader Format Segment Trailer

def compositeFormatVersion : Nat := 1

/-- The ASCII of "OQCM". -/
def compositeMagic : List UInt8 := [0x4F, 0x51, 0x43, 0x4D]

def compositeTrailerLen : Nat := 4 + 1 + 4 + 4

structure Component where
  object : ObjectKey
  regions : List Region
  deriving DecidableEq, Repr

/-- The components collected; which objects they are is what another may not be. -/
structure CompositeBuilder where
  components : List Component := []
  deriving DecidableEq, Repr

def CompositeBuilder.push (self : CompositeBuilder) (component : Component) :
    Except Error CompositeBuilder :=
  if component.regions.isEmpty then .error .emptyBundle
  else if self.components.any fun held => held.object == component.object then
    .error .indexObjectMismatch
  else if component.regions.any fun region => region.bytes == .full then .error .unboundedRegion
  else .ok ⟨self.components ++ [component]⟩

namespace Composite

open Footer (putName putLength encodeBounds refusing boundsImage)

def encodeRegion (region : Region) : Put := do
  putName region.topic.name
  append (toBeBytes 4 region.partition)
  append (toBeBytes 4 region.recordCount)
  encodeBounds region.bytes
  -- the form has no room for an envelope
  if region.alg ≠ .none then refusing (.sealedRegionNotRepresentable "a composite manifest")
  else append (toBeBytes 1 region.alg.code)

def encodeComponent (component : Component) : Put := do
  putName component.object.key
  putLength component.regions.length
  component.regions.forM encodeRegion

end Composite

def CompositeBuilder.seal (self : CompositeBuilder) : Except Error (List UInt8) :=
  if self.components.isEmpty then .error .emptyBundle
  else do
    let ((), out) ← (self.components.forM Composite.encodeComponent).run []
    if out.length < 2 ^ 32 ∧ self.components.length < 2 ^ 32 then
      return out ++ (toBeBytes 4 self.components.length ++ (toBeBytes 1 compositeFormatVersion ++
        (toBeBytes 4 out.length ++ compositeMagic)))
    else .error .bundleTooLarge

namespace Composite

def malformed (_ : Nat) (cur : Cursor) : Error := .malformedCompositeManifest cur.pos

def readText (len : Nat) : Read Error String := do
  let cur ← get
  let raw ← take malformed len
  match String.fromUTF8? ⟨raw.toArray⟩ with
  | some text => return text
  | none => throw (.malformedCompositeManifest cur.pos)

/-- The end of a region: where its bytes are, and that they are stored as written. -/
def decodeStored (topic : TopicId) (partition recordCount at_ : Nat) : Read Error Region := do
  let offset ← unsigned malformed 8
  let length ← unsigned malformed 8
  let alg ← RegionAlg.fromCode (← unsigned malformed 1)
  if alg ≠ .none then throw (.malformedCompositeManifest at_)
  else
    let bytes ← ByteRange.new offset length
    return ⟨topic, partition, bytes, recordCount, alg, none⟩

def decodeCounted (topic : TopicId) (partition at_ : Nat) : Read Error Region := do
  let recordCount ← unsigned malformed 4
  if recordCount = 0 then throw (.malformedCompositeManifest at_)
  else decodeStored topic partition recordCount at_

def decodeRegion : Read Error Region := do
  let nameLen ← unsigned malformed 2
  let name ← readText nameLen
  let topic ← TopicId.new name
  let rawPartition ← unsigned malformed 4
  let cur ← get
  let partition ← (if rawPartition < 2 ^ 31 then PartitionId.new rawPartition
    else .error (.malformedCompositeManifest cur.pos) : Except Error Nat)
  decodeCounted topic partition cur.pos

def decodeComponent : Read Error Component := do
  let keyLen ← unsigned malformed 2
  let object ← ObjectKey.new (← readText keyLen)
  let regionCount ← unsigned malformed 4
  if regionCount = 0 then throw .emptyBundle
  else return ⟨object, ← readMany decodeRegion regionCount⟩

def checkNew (held : List Component) (component : Component) (at_ : Nat) : Except Error Unit :=
  if held.any fun other => other.object == component.object then
    .error (.malformedCompositeManifest at_)
  else .ok ()

def decodeTrailer : Read Error (Nat × Nat) := do
  let count ← unsigned malformed 4
  let version ← unsigned malformed 1
  if version ≠ compositeFormatVersion then throw (.unknownCompositeVersion version)
  else return (count, ← unsigned malformed 4)

def decodeBody (count trailerAt : Nat) : Read Error (List Component) := do
  let components ← gather decodeComponent checkNew count []
  let cur ← get
  if cur.pos ≠ trailerAt then throw (.malformedCompositeManifest cur.pos)
  else return components

end Composite

/-- Reads a composite's manifest back out of its payload. -/
def parseComposite (bytes : List UInt8) : Except Error (List Component) :=
  if bytes.length < compositeTrailerLen then .error (.malformedCompositeManifest 0)
  else
    let trailerAt := bytes.length - compositeTrailerLen
    if bytes.drop (bytes.length - 4) ≠ compositeMagic then .error .notACompositeManifest
    else do
      let ((count, manifestLen), _) ← Composite.decodeTrailer.run { buf := bytes.drop trailerAt }
      if count = 0 then .error .emptyBundle
      else if manifestLen ≠ trailerAt then .error (.malformedCompositeManifest trailerAt)
      else
        let (components, _) ← (Composite.decodeBody count trailerAt).run
          { buf := bytes.take trailerAt }
        return components

/-- Where one partition's records are: an object, and the range inside it. -/
structure Located where
  object : ObjectKey
  bytes : ByteRange
  recordCount : Nat
  deriving DecidableEq, Repr

/-- Every place a partition's records are, in the order the manifest lists them. -/
def locate (components : List Component) (topic : TopicId) (partition : Nat) : List Located :=
  components.flatMap fun component => component.regions.filterMap fun region =>
    if region.topic = topic ∧ region.partition = partition then
      some ⟨component.object, region.bytes, region.recordCount⟩
    else none

namespace Composite

def regionImage (region : Region) : List UInt8 :=
  strImage region.topic.name ++ (toBeBytes 4 region.partition ++ (toBeBytes 4 region.recordCount ++
    (Footer.boundsImage region.bytes ++ toBeBytes 1 region.alg.code)))

def componentImage (component : Component) : List UInt8 :=
  strImage component.object.key ++ (toBeBytes 4 component.regions.length ++
    component.regions.flatMap regionImage)

def bodyImage (components : List Component) : List UInt8 := components.flatMap componentImage

def image (components : List Component) : List UInt8 :=
  bodyImage components ++ trailerImage compositeFormatVersion components.length
    (bodyImage components).length compositeMagic

/-- What the form has room for: a region stored as written, in a part of its object. -/
structure RegionFits (region : Region) : Prop where
  topic : Short region.topic.name
  bounded : region.bytes ≠ .full
  plain : region.alg = .none

structure ComponentFits (component : Component) : Prop where
  object : Short component.object.key
  count : component.regions.length < 2 ^ 32
  regions : ∀ region ∈ component.regions, RegionFits region

structure Fits (components : List Component) : Prop where
  each : ∀ component ∈ components, ComponentFits component
  body : (bodyImage components).length < 2 ^ 32
  count : components.length < 2 ^ 32

theorem writes_region (region : Region) :
    Writes (encodeRegion region) fun w => RegionFits region ∧ w = regionImage region := by
  have sealing : Writes (if region.alg ≠ .none then
      Footer.refusing (.sealedRegionNotRepresentable "a composite manifest")
      else append (toBeBytes 1 region.alg.code)) fun w =>
        region.alg = .none ∧ w = toBeBytes 1 region.alg.code := by
    by_cases plain : region.alg = .none
    · rw [if_neg (not_not.mpr plain)]
      exact (Writes.append _).congr fun w => (and_iff_right plain).symm
    · rw [if_pos plain]
      exact (Footer.writes_refusing _).congr fun w => iff_of_false id fun h => plain h.1
  refine ((Footer.writes_name _).bind ((Writes.append _).bind ((Writes.append _).bind
    ((Footer.writes_bounds _).bind sealing)))).congr fun w => ?_
  constructor
  · rintro ⟨_, _, ⟨short, rfl⟩, ⟨_, _, rfl, ⟨_, _, rfl, ⟨_, _, ⟨bounded, rfl⟩, ⟨plain, rfl⟩, rfl⟩,
      rfl⟩, rfl⟩, rfl⟩
    exact ⟨⟨short, bounded, plain⟩, rfl⟩
  · rintro ⟨⟨short, bounded, plain⟩, rfl⟩
    exact ⟨_, _, ⟨short, rfl⟩, ⟨_, _, rfl, ⟨_, _, rfl, ⟨_, _, ⟨bounded, rfl⟩, ⟨plain, rfl⟩, rfl⟩,
      rfl⟩, rfl⟩, rfl⟩

theorem writes_component (component : Component) : Writes (encodeComponent component) fun w =>
    ComponentFits component ∧ w = componentImage component := by
  refine ((Footer.writes_name _).bind ((Footer.writes_length _).bind
    (Writes.each writes_region component.regions))).congr fun w => ?_
  constructor
  · rintro ⟨_, _, ⟨short, rfl⟩, ⟨_, _, ⟨count, rfl⟩, ⟨all, rfl⟩, rfl⟩, rfl⟩
    exact ⟨⟨short, count, all⟩, rfl⟩
  · rintro ⟨⟨short, count, all⟩, rfl⟩
    exact ⟨_, _, ⟨short, rfl⟩, ⟨_, _, ⟨count, rfl⟩, ⟨all, rfl⟩, rfl⟩, rfl⟩

theorem seal_eq_ok {builder : CompositeBuilder} {bytes : List UInt8} : builder.seal = .ok bytes ↔
    (builder.components ≠ [] ∧ Fits builder.components) ∧ bytes = image builder.components := by
  have written := @Writes.whole _ _ _ (Writes.each writes_component builder.components)
  unfold CompositeBuilder.seal
  by_cases none : builder.components.isEmpty = true
  · rw [if_pos none]
    exact iff_of_false nofun fun h => h.1.1 (List.isEmpty_iff.mp none)
  rw [if_neg none, Checked.bind_eq_ok]
  have some : builder.components ≠ [] := fun empty => none (List.isEmpty_iff.mpr empty)
  constructor
  · rintro ⟨⟨⟨⟩, out⟩, ran, h⟩
    obtain ⟨all, rfl⟩ := written.mp ran
    dsimp only at h
    split at h
    · rename_i room
      cases h
      exact ⟨⟨some, all, room.1, room.2⟩, rfl⟩
    · cases h
  · rintro ⟨⟨-, all, body, count⟩, rfl⟩
    refine ⟨_, written.mpr ⟨all, rfl⟩, ?_⟩
    dsimp only
    exact if_pos ⟨body, count⟩

theorem reads_text (len : Nat) : Reads (readText len) fun text bytes =>
    (utf8 text).length = len ∧ bytes = utf8 text :=
  Reads.get_bind fun _ => reads_utf8 malformed _ len

/-- What is read of a region: some records, as the source's types hold them, and no envelope. -/
structure RegionRead (region : Region) : Prop where
  typed : region.Typed
  some : region.recordCount ≠ 0
  envelope : region.envelope = none

/-- What follows a region's count: a part of its object, stored as written. -/
def Stored (topic : TopicId) (partition recordCount : Nat) (region : Region) (bytes : List UInt8) :
    Prop :=
  ∃ range, region = ⟨topic, partition, range, recordCount, .none, none⟩ ∧
    (range.Typed ∧ range ≠ .full) ∧
    bytes = Footer.boundsImage range ++ toBeBytes 1 RegionAlg.none.code

theorem reads_stored (topic : TopicId) (partition recordCount at_ : Nat) :
    Reads (decodeStored topic partition recordCount at_) (Stored topic partition recordCount) := by
  have plain (offset length : Nat) (alg : RegionAlg) : Reads (if alg ≠ .none then
      throw (.malformedCompositeManifest at_)
      else do
        let bytes ← ByteRange.new offset length
        return ⟨topic, partition, bytes, recordCount, alg, none⟩ : Read Error Region)
      fun region bytes => alg = .none ∧ length ≠ 0 ∧
        region = ⟨topic, partition, .bounded offset length, recordCount, .none, none⟩ ∧
        bytes = [] := by
    by_cases plain : alg = .none
    · subst plain
      rw [if_neg (not_not.mpr rfl)]
      refine ((Reads.check (x := ByteRange.new offset length)).bind fun range => Reads.pure _).congr
        fun region bytes => ?_
      constructor
      · rintro ⟨range, _, _, ⟨made, rfl⟩, ⟨rfl, rfl⟩, rfl⟩
        obtain ⟨rfl, nonzero⟩ := ByteRange.new_eq_ok.mp made
        exact ⟨rfl, nonzero, rfl, rfl⟩
      · rintro ⟨-, nonzero, rfl, rfl⟩
        exact ⟨_, _, _, ⟨ByteRange.new_eq_ok.mpr ⟨rfl, nonzero⟩, rfl⟩, ⟨rfl, rfl⟩, rfl⟩
    · rw [if_pos plain]
      exact (Reads.throw _).congr fun region bytes => iff_of_false id fun h => plain h.1
  refine ((Reads.unsigned malformed 8).bind fun offset => (Reads.unsigned malformed 8).bind
    fun length => (Reads.unsigned malformed 1).bind fun code =>
      (Reads.check (x := RegionAlg.fromCode code)).bind fun alg => plain offset length alg).congr
        fun region bytes => ?_
  constructor
  · rintro ⟨offset, _, _, ⟨hoffset, rfl⟩, ⟨length, _, _, ⟨hlength, rfl⟩, ⟨code, _, _, ⟨-, rfl⟩, ⟨alg, _,
      _, ⟨known, rfl⟩, ⟨rfl, nonzero, rfl, rfl⟩, rfl⟩, rfl⟩, rfl⟩, rfl⟩
    obtain rfl := RegionAlg.fromCode_eq_ok.mp known
    exact ⟨_, rfl, ⟨⟨⟨hoffset, hlength⟩, nonzero⟩, nofun⟩, by simp [Footer.boundsImage]⟩
  · rintro ⟨range, rfl, ⟨typed, bounded⟩, rfl⟩
    cases range with
    | full => exact absurd rfl bounded
    | bounded offset length =>
      obtain ⟨⟨hoffset, hlength⟩, nonzero⟩ := typed
      exact ⟨offset, _, _, ⟨hoffset, rfl⟩, ⟨length, _, _, ⟨hlength, rfl⟩, ⟨_, _, _, ⟨by decide, rfl⟩,
        ⟨_, _, _, ⟨RegionAlg.fromCode_eq_ok.mpr rfl, rfl⟩, ⟨rfl, nonzero, rfl, rfl⟩, rfl⟩, rfl⟩, rfl⟩,
        by simp [Footer.boundsImage]⟩

theorem reads_region : Reads decodeRegion fun region bytes =>
    (RegionRead region ∧ RegionFits region) ∧ bytes = regionImage region := by
  have counted (topic : TopicId) (partition at_ : Nat) : Reads (decodeCounted topic partition at_)
      fun region bytes => ∃ recordCount rest, (recordCount < 256 ^ 4 ∧ recordCount ≠ 0) ∧
        Stored topic partition recordCount region rest ∧
        bytes = toBeBytes 4 recordCount ++ rest := by
    refine ((Reads.unsigned malformed 4).bind (G := fun recordCount region bytes =>
      recordCount ≠ 0 ∧ Stored topic partition recordCount region bytes) fun recordCount => ?_).congr
        fun region bytes => ?_
    · by_cases none : recordCount = 0
      · rw [if_pos none]
        exact (Reads.throw _).congr fun region bytes => iff_of_false id fun h => h.1 none
      · rw [if_neg none]
        exact (reads_stored topic partition recordCount at_).congr
          fun region bytes => (and_iff_right none).symm
    · constructor
      · rintro ⟨recordCount, _, rest, ⟨small, rfl⟩, ⟨some, stored⟩, rfl⟩
        exact ⟨recordCount, rest, ⟨small, some⟩, stored, rfl⟩
      · rintro ⟨recordCount, rest, ⟨small, some⟩, stored, rfl⟩
        exact ⟨recordCount, _, rest, ⟨small, rfl⟩, ⟨some, stored⟩, rfl⟩
  refine ((Reads.unsigned malformed 2).bind fun nameLen => (reads_text nameLen).bind fun name =>
    (Reads.check (x := TopicId.new name)).bind fun topic => (Reads.unsigned malformed 4).bind
      fun index => Reads.get_bind fun cur => (Footer.reads_partition _ index).bind fun partition =>
        counted topic partition cur.pos).congr fun region bytes => ?_
  constructor
  · rintro ⟨_, _, _, ⟨small, rfl⟩, ⟨name, _, _, ⟨rfl, rfl⟩, ⟨topic, _, _, ⟨htopic, rfl⟩, ⟨index, _, _,
      ⟨-, rfl⟩, ⟨_, _, _, ⟨⟨hindex, rfl⟩, rfl⟩, ⟨recordCount, _, ⟨hcount, some⟩, ⟨range, rfl,
      ⟨hrange, bounded⟩, rfl⟩, rfl⟩, rfl⟩, rfl⟩, rfl⟩, rfl⟩, rfl⟩
    obtain ⟨rfl, named⟩ := TopicId.new_eq_ok.mp htopic
    exact ⟨⟨⟨⟨named, hindex, hrange, hcount⟩, some, rfl⟩, ⟨small, bounded, rfl⟩⟩,
      by simp [regionImage, strImage]⟩
  · rintro ⟨⟨⟨typed, some, plain⟩, ⟨short, bounded, alg⟩⟩, rfl⟩
    obtain ⟨topic, partition, range, recordCount, alg, envelope⟩ := region
    obtain ⟨htopic, hpartition, hrange, hcount⟩ := typed
    subst alg plain
    exact ⟨_, _, _, ⟨short, rfl⟩, ⟨_, _, _, ⟨rfl, rfl⟩, ⟨topic, _, _,
      ⟨TopicId.new_eq_ok.mpr ⟨rfl, htopic⟩, rfl⟩, ⟨partition, _, _,
      ⟨lt_trans hpartition (by decide), rfl⟩, ⟨_, _, _, ⟨⟨hpartition, rfl⟩, rfl⟩, ⟨recordCount, _,
      ⟨hcount, some⟩, ⟨range, rfl, ⟨hrange, bounded⟩, rfl⟩, rfl⟩, rfl⟩, rfl⟩, rfl⟩, rfl⟩,
      by simp [regionImage, strImage]⟩

/-- What is read of a component: an object's name, and some regions. -/
structure ComponentRead (component : Component) : Prop where
  object : component.object.Typed
  some : component.regions ≠ []
  regions : ∀ region ∈ component.regions, RegionRead region

theorem reads_component : Reads decodeComponent fun component bytes =>
    (ComponentRead component ∧ ComponentFits component) ∧ bytes = componentImage component := by
  have counted (object : ObjectKey) : Reads (do
      let regionCount ← unsigned malformed 4
      if regionCount = 0 then throw .emptyBundle
      else return (⟨object, ← readMany decodeRegion regionCount⟩ : Component))
      fun component bytes => (component.object = object ∧ component.regions ≠ [] ∧
        component.regions.length < 2 ^ 32 ∧
        ∀ region ∈ component.regions, RegionRead region ∧ RegionFits region) ∧
        bytes = toBeBytes 4 component.regions.length ++ component.regions.flatMap regionImage := by
    refine ((Reads.unsigned malformed 4).bind (G := fun count component bytes => count ≠ 0 ∧
      (component.object = object ∧ component.regions.length = count ∧
        ∀ region ∈ component.regions, RegionRead region ∧ RegionFits region) ∧
        bytes = component.regions.flatMap regionImage) fun count => ?_).congr
          fun component bytes => ?_
    · by_cases none : count = 0
      · rw [if_pos none]
        exact (Reads.throw _).congr fun component bytes => iff_of_false id fun h => h.1 none
      · rw [if_neg none]
        refine ((reads_region.many count).bind fun regions =>
          Reads.pure (⟨object, regions⟩ : Component)).congr fun component bytes => ?_
        constructor
        · rintro ⟨regions, _, _, ⟨⟨length, all⟩, rfl⟩, ⟨rfl, rfl⟩, rfl⟩
          exact ⟨none, ⟨rfl, length, all⟩, List.append_nil _⟩
        · rintro ⟨-, ⟨rfl, length, all⟩, rfl⟩
          exact ⟨component.regions, _, _, ⟨⟨length, all⟩, rfl⟩, ⟨rfl, rfl⟩, (List.append_nil _).symm⟩
    · constructor
      · rintro ⟨_, _, _, ⟨small, rfl⟩, ⟨some, ⟨rfl, rfl, all⟩, rfl⟩, rfl⟩
        exact ⟨⟨rfl, fun none => some (by rw [none]; rfl), small, all⟩, rfl⟩
      · rintro ⟨⟨rfl, some, small, all⟩, rfl⟩
        exact ⟨_, _, _, ⟨small, rfl⟩, ⟨fun none => some (List.length_eq_zero_iff.mp none),
          ⟨rfl, rfl, all⟩, rfl⟩, rfl⟩
  refine ((Reads.unsigned malformed 2).bind fun keyLen => (reads_text keyLen).bind fun name =>
    (Reads.check (x := ObjectKey.new name)).bind fun object => counted object).congr
      fun component bytes => ?_
  constructor
  · rintro ⟨_, _, _, ⟨small, rfl⟩, ⟨name, _, _, ⟨rfl, rfl⟩, ⟨_, _, _, ⟨made, rfl⟩,
      ⟨⟨rfl, some, count, all⟩, rfl⟩, rfl⟩, rfl⟩, rfl⟩
    obtain ⟨rfl, typed⟩ := ObjectKey.new_eq_ok.mp made
    exact ⟨⟨⟨typed, some, fun r h => (all r h).1⟩, ⟨small, count, fun r h => (all r h).2⟩⟩,
      by simp [componentImage, strImage]⟩
  · rintro ⟨⟨⟨typed, some, read⟩, ⟨short, count, fits⟩⟩, rfl⟩
    exact ⟨_, _, _, ⟨short, rfl⟩, ⟨_, _, _, ⟨rfl, rfl⟩, ⟨component.object, _, _,
      ⟨ObjectKey.new_eq_ok.mpr ⟨rfl, typed⟩, rfl⟩,
      ⟨⟨rfl, some, count, fun r h => ⟨read r h, fits r h⟩⟩, rfl⟩, rfl⟩, rfl⟩,
      by simp [componentImage, strImage]⟩

def New (held : List Component) (component : Component) : Prop :=
  ∀ other ∈ held, other.object ≠ component.object

theorem new_iff {held : List Component} {component : Component} :
    ¬ (held.any fun other => other.object == component.object) = true ↔ New held component := by
  simp [New]

theorem checkNew_eq_ok {held : List Component} {component : Component} {at_ : Nat} :
    checkNew held component at_ = .ok () ↔ New held component := by
  unfold checkNew
  by_cases repeated : (held.any fun other => other.object == component.object) = true
  · rw [if_pos repeated]
    exact iff_of_false nofun fun fresh => new_iff.mpr fresh repeated
  · rw [if_neg repeated]
    exact iff_of_true rfl (new_iff.mp repeated)

theorem decodeBody_eq_ok {count : Nat} {body : List UInt8} {components : List Component}
    {cur : Cursor} : (Composite.decodeBody count body.length).run { buf := body } =
      .ok (components, cur) ↔
    ((components.length = count ∧ (∀ component ∈ components, ComponentRead component ∧
      ComponentFits component) ∧ Grows New [] components) ∧ body = bodyImage components) ∧
      cur = ⟨body, body.length⟩ := by
  have checks (held : List Component) (component : Component) (at_ : Nat) :
      checkNew held component at_ = .ok () ↔ New held component := checkNew_eq_ok
  have gathered : Reads (gather decodeComponent checkNew count []) fun components bytes =>
      (components.length = count ∧ (∀ component ∈ components, ComponentRead component ∧
        ComponentFits component) ∧ Grows New [] components) ∧ bytes = bodyImage components := by
    refine (Reads.gather reads_component checks count []).congr fun components bytes => ?_
    simp [bodyImage]
  exact gathered.ends fun cur => .malformedCompositeManifest cur.pos

/-- What the parser asks of a composite, apart from its bytes. -/
structure Valid (components : List Component) : Prop where
  inhabited : components ≠ []
  each : ∀ component ∈ components, ComponentRead component
  new : Grows New [] components

theorem parseComposite_eq (bytes : List UInt8) : parseComposite bytes =
    Trailer.parse (.malformedCompositeManifest 0) .notACompositeManifest .emptyBundle
      .malformedCompositeManifest Composite.decodeTrailer compositeMagic Composite.decodeBody bytes :=
  rfl

theorem parse_eq_ok {bytes : List UInt8} {components : List Component} :
    parseComposite bytes = .ok components ↔
      (Valid components ∧ Fits components) ∧ bytes = image components := by
  have trailer : Reads Composite.decodeTrailer (Trails compositeFormatVersion) :=
    reads_trailer malformed (by decide) .unknownCompositeVersion
  have four : compositeMagic.length = 4 := rfl
  rw [parseComposite_eq, Trailer.parse_eq_ok _ _ _ _ four trailer fun _ _ _ _ => decodeBody_eq_ok]
  constructor
  · rintro ⟨_, _, some, ⟨counts, short⟩, ⟨⟨rfl, all, new⟩, rfl⟩, rfl⟩
    exact ⟨⟨⟨fun none => some (by rw [none]; rfl), fun c h => (all c h).1, new⟩,
      ⟨fun c h => (all c h).2, short, counts⟩⟩, rfl⟩
  · rintro ⟨⟨valid, fits⟩, rfl⟩
    exact ⟨components.length, bodyImage components,
      fun none => valid.inhabited (List.length_eq_zero_iff.mp none), ⟨fits.count, fits.body⟩,
      ⟨⟨rfl, fun c h => ⟨valid.each c h, fits.each c h⟩, valid.new⟩, rfl⟩, rfl⟩

def Parted (component : Component) : Prop :=
  component.regions ≠ [] ∧ ∀ region ∈ component.regions, region.bytes ≠ .full

theorem push_eq_ok {builder after : CompositeBuilder} {component : Component} :
    builder.push component = .ok after ↔ (New builder.components component ∧ Parted component) ∧
      after = ⟨builder.components ++ [component]⟩ := by
  unfold CompositeBuilder.push Parted
  by_cases none : component.regions.isEmpty = true
  · rw [if_pos none]
    exact iff_of_false nofun fun h => h.1.2.1 (List.isEmpty_iff.mp none)
  have some : component.regions ≠ [] := fun empty => none (List.isEmpty_iff.mpr empty)
  rw [if_neg none]
  by_cases repeated : (builder.components.any fun held => held.object == component.object) = true
  · rw [if_pos repeated]
    exact iff_of_false nofun fun h => new_iff.mpr h.1.1 repeated
  rw [if_neg repeated]
  by_cases full : (component.regions.any fun region => region.bytes == .full) = true
  · rw [if_pos full]
    refine iff_of_false nofun fun h => ?_
    obtain ⟨region, hregion, same⟩ := List.any_eq_true.mp full
    exact h.1.2.2 region hregion (eq_of_beq same)
  · rw [if_neg full, Except.ok.injEq, eq_comm]
    refine (and_iff_right ⟨new_iff.mp repeated, some, fun region hregion same => ?_⟩).symm
    exact full (List.any_eq_true.mpr ⟨region, hregion, beq_iff_eq.mpr same⟩)

theorem pushed_eq_ok {components : List Component} {builder after : CompositeBuilder} :
    components.foldlM CompositeBuilder.push builder = .ok after ↔
      (Grows New builder.components components ∧ ∀ component ∈ components, Parted component) ∧
        after = ⟨builder.components ++ components⟩ := by
  have folded : components.foldl (fun builder component =>
      (⟨builder.components ++ [component]⟩ : CompositeBuilder)) builder =
        ⟨builder.components ++ components⟩ := by
    induction components generalizing builder with
    | nil => rw [List.append_nil, List.foldl_nil]
    | cons component rest ih => rw [List.foldl_cons, ih, List.append_assoc, List.singleton_append]
  rw [← folded, ← grows_and_iff]
  exact foldlM_eq_ok_iff_grows CompositeBuilder.components (fun _ _ _ => push_eq_ok)
    (fun _ _ => rfl) components builder after

end Composite

/-- A region comes out of a bundle when it is sealed, or is read from a footer or a composite. -/
inductive Region.Made : Region → Prop where
  | bundled {pushes : List Push} {builder : BundleBuilder} {object : SealedBundle} {region : Region}
      (typed : ∀ push ∈ pushes, push.Typed)
      (pushed : pushes.foldlM BundleBuilder.call {} = .ok builder)
      (written : builder.seal = .ok object) (room : object.payload.length ≤ u64Max)
      (among : region ∈ object.regions) : Region.Made region
  | footer {tail : List UInt8} {objectSize : Nat} {regions : List Region} {region : Region}
      (room : objectSize ≤ u64Max) (parsed : parseFooter tail objectSize = .ok regions)
      (among : region ∈ regions) : Region.Made region
  | composite {bytes : List UInt8} {components : List Component} {component : Component}
      {region : Region} (parsed : parseComposite bytes = .ok components)
      (listed : component ∈ components) (among : region ∈ component.regions) : Region.Made region

/-- Every region there is has some records, and an envelope only when it is sealed. -/
theorem Region.Made.whole {region : Region} (made : region.Made) :
    region.Typed ∧ region.recordCount ≠ 0 ∧ (region.alg = .none → region.envelope = none) := by
  cases made with
  | bundled typed pushed written room among =>
    obtain ⟨taken, same, -, -, -, payload⟩ := seal_of_calls pushed written
    rw [same] at among
    obtain ⟨push, hpush, begins, rfl, ends⟩ := mem_placed among
    have typed := typed push hpush
    have taken := taken push hpush
    rw [payload, List.length_append] at room
    have wide : begins < 2 ^ 64 ∧ push.bytes.length < 2 ^ 64 := by
      unfold u64Max at room
      omega
    exact ⟨⟨typed.topic, typed.partition, ⟨wide, taken.bytes⟩, typed.count⟩, taken.count,
      taken.agrees.mp⟩
  | footer room parsed among =>
    obtain ⟨-, all, -⟩ := (parseFooter_eq_ok room).mp parsed
    obtain ⟨typed, formed, some⟩ := all region among
    exact ⟨typed, some, formed.agrees.mp⟩
  | composite parsed listed among =>
    obtain ⟨⟨valid, -⟩, -⟩ := Composite.parse_eq_ok.mp parsed
    have read := (valid.each _ listed).regions region among
    exact ⟨read.typed, read.some, fun _ => read.envelope⟩

namespace Composite

theorem sealed_reads_back_iff {components : List Component} {builder : CompositeBuilder}
    {bytes : List UInt8} (named : ∀ component ∈ components, component.object.Typed)
    (pushed : components.foldlM CompositeBuilder.push {} = .ok builder)
    (written : builder.seal = .ok bytes) : parseComposite bytes = .ok components ↔
      ∀ component ∈ components, ∀ region ∈ component.regions, RegionRead region := by
  obtain ⟨⟨new, parted⟩, rfl⟩ := pushed_eq_ok.mp pushed
  obtain ⟨⟨inhabited, fits⟩, rfl⟩ := seal_eq_ok.mp written
  rw [parse_eq_ok]
  constructor
  · rintro ⟨⟨valid, -⟩, -⟩ component hcomponent
    exact (valid.each component hcomponent).regions
  · intro read
    exact ⟨⟨⟨inhabited, fun c h => ⟨named c h, (parted c h).1, read c h⟩, new⟩, fits⟩, rfl⟩

def places (component : Component) (topic : TopicId) (partition : Nat) : List Located :=
  (component.regions.filter fun region => region.topic = topic ∧ region.partition = partition).map
    fun region => ⟨component.object, region.bytes, region.recordCount⟩

theorem locate_eq (components : List Component) (topic : TopicId) (partition : Nat) :
    locate components topic partition =
      components.flatMap fun component => places component topic partition := by
  unfold locate places
  congr 1
  funext component
  induction component.regions with
  | nil => rfl
  | cons region rest ih =>
    rw [List.filterMap_cons, List.filter_cons]
    by_cases here : region.topic = topic ∧ region.partition = partition
    · simp [here, ih]
    · simp [here, ih]

theorem object_of_mem_places {component : Component} {topic : TopicId} {partition : Nat}
    {found : Located} (h : found ∈ places component topic partition) :
    found.object = component.object := by
  obtain ⟨region, -, rfl⟩ := List.mem_map.mp h
  rfl

/-- Of the places found, those in one object are that component's own. -/
theorem locate_in_object {components : List Component}
    (distinct : components.Pairwise fun a b => a.object ≠ b.object) {component : Component}
    (listed : component ∈ components) (topic : TopicId) (partition : Nat) :
    (locate components topic partition).filter (fun found => found.object = component.object) =
      places component topic partition := by
  have mine (component : Component) : (places component topic partition).filter
      (fun found => found.object = component.object) = places component topic partition :=
    List.filter_eq_self.mpr fun found h => decide_eq_true (object_of_mem_places h)
  have others (rest : List Component) (apart : ∀ other ∈ rest, other.object ≠ component.object) :
      (locate rest topic partition).filter (fun found => found.object = component.object) = [] := by
    refine List.filter_eq_nil_iff.mpr fun found h same => ?_
    rw [locate_eq] at h
    obtain ⟨other, hother, h⟩ := List.mem_flatMap.mp h
    exact apart other hother ((object_of_mem_places h).symm.trans (of_decide_eq_true same))
  obtain ⟨before, after, rfl⟩ := List.append_of_mem listed
  obtain ⟨-, later, across⟩ := List.pairwise_append.mp distinct
  have earlier := others before fun other h => across other h component (List.mem_cons_self ..)
  have rest := others after fun other h => ((List.pairwise_cons.mp later).1 other h).symm
  rw [locate_eq] at earlier rest ⊢
  rw [List.flatMap_append, List.flatMap_cons, List.filter_append, List.filter_append, earlier, rest,
    mine, List.nil_append, List.append_nil]

end Composite

/-- What a composite's builder seals is read back, what is read is what a builder seals, and the
places found in an object are the parts of it that hold the partition's records, each of them
in one component. -/
theorem composite_sealed_exactly (bytes : List UInt8) :
    (∀ components builder, (∀ component ∈ components, component.object.Typed ∧
        ∀ region ∈ component.regions, region.Made) →
      components.foldlM CompositeBuilder.push {} = .ok builder → builder.seal = .ok bytes →
      parseComposite bytes = .ok components) ∧
    ∀ components, parseComposite bytes = .ok components →
      (∃ builder, components.foldlM CompositeBuilder.push {} = .ok builder ∧
        builder.seal = .ok bytes) ∧
      ∀ topic partition, (∀ component ∈ components, (locate components topic partition).filter
          (fun found => found.object = component.object) =
            Composite.places component topic partition) ∧
        ∀ found ∈ locate components topic partition, found.bytes ≠ .full ∧
          ∃ component ∈ components, found.object = component.object := by
  constructor
  · intro components builder made pushed written
    obtain ⟨-, rfl⟩ := Composite.pushed_eq_ok.mp pushed
    obtain ⟨⟨-, fits⟩, -⟩ := Composite.seal_eq_ok.mp written
    apply (Composite.sealed_reads_back_iff (fun c h => (made c h).1) pushed written).mpr
    intro component hcomponent region hregion
    obtain ⟨typed, some, plain⟩ := ((made component hcomponent).2 region hregion).whole
    exact ⟨typed, some, plain ((fits.each component hcomponent).regions region hregion).plain⟩
  · intro components parsed
    obtain ⟨⟨valid, fits⟩, here⟩ := Composite.parse_eq_ok.mp parsed
    have distinct := (grows_iff_pairwise.mp valid.new).1
    refine ⟨⟨⟨components⟩, ?_, Composite.seal_eq_ok.mpr ⟨⟨valid.inhabited, fits⟩, here⟩⟩, ?_⟩
    · refine Composite.pushed_eq_ok.mpr ⟨⟨valid.new, fun component h => ?_⟩, rfl⟩
      exact ⟨(valid.each component h).some,
        fun region hregion => ((fits.each component h).regions region hregion).bounded⟩
    · intro topic partition
      refine ⟨fun component h => Composite.locate_in_object distinct h topic partition, ?_⟩
      intro found h
      rw [Composite.locate_eq] at h
      obtain ⟨component, hcomponent, h⟩ := List.mem_flatMap.mp h
      refine ⟨?_, component, hcomponent, Composite.object_of_mem_places h⟩
      obtain ⟨region, hregion, rfl⟩ := List.mem_map.mp h
      exact ((fits.each component hcomponent).regions region (List.mem_of_mem_filter hregion)).bounded

/-- The first three records of a partition, as a bundle has them. -/
def firstThree : Region := ⟨⟨"t"⟩, 0, .bounded 0 3, 3, .none, none⟩

theorem firstThree_made : firstThree.Made := by
  have taken : ∀ push ∈ [Push.plain ⟨"t"⟩ 0 ⟨3, none⟩ [1, 2, 3]], push.Taken :=
    List.forall_mem_singleton.mpr ⟨by decide, by decide, by decide, by decide⟩
  obtain ⟨builder, object, pushed, written, regions, payload⟩ :=
    exists_seal taken (List.cons_ne_nil _ _) (by decide +kernel)
  refine .bundled (List.forall_mem_singleton.mpr ?_) pushed written ?_ ?_
  · exact ⟨(by decide : "t".isEmpty = false), by decide, by decide⟩
  · rw [payload]
    decide +kernel
  · rw [regions]
    exact List.mem_singleton_self _

def twoSlices : List Component := [⟨⟨"a"⟩, [firstThree]⟩, ⟨⟨"b"⟩, [firstThree]⟩]

theorem composite_sealed_exactly_twoSlices : ∃ bytes builder,
    twoSlices.foldlM CompositeBuilder.push {} = .ok builder ∧ builder.seal = .ok bytes ∧
      parseComposite bytes = .ok twoSlices ∧ (locate twoSlices ⟨"t"⟩ 0).length = 2 := by
  have made : ∀ component ∈ twoSlices, component.object.Typed ∧
      ∀ region ∈ component.regions, region.Made := by
    have regions : ∀ region ∈ [firstThree], region.Made :=
      List.forall_mem_singleton.mpr firstThree_made
    have a : "a".isEmpty = false := by decide
    have b : "b".isEmpty = false := by decide
    exact List.forall_mem_cons.mpr ⟨⟨a, regions⟩, List.forall_mem_singleton.mpr ⟨b, regions⟩⟩
  have fits : Composite.Fits twoSlices := by
    have region : ∀ region ∈ [firstThree], Composite.RegionFits region :=
      List.forall_mem_singleton.mpr ⟨by decide, by decide, by decide⟩
    refine ⟨List.forall_mem_cons.mpr ⟨⟨by decide, by decide, region⟩,
      List.forall_mem_singleton.mpr ⟨by decide, by decide, region⟩⟩, by decide +kernel, by decide⟩
  have pushed : twoSlices.foldlM CompositeBuilder.push {} = .ok ⟨twoSlices⟩ := by decide
  have written : CompositeBuilder.seal ⟨twoSlices⟩ = .ok (Composite.image twoSlices) :=
    Composite.seal_eq_ok.mpr ⟨⟨by decide, fits⟩, rfl⟩
  exact ⟨_, _, pushed, written, (composite_sealed_exactly _).1 _ _ made pushed written, by decide⟩

end Oqueue
