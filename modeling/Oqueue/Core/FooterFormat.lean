import Oqueue.Core.Bundle
import Oqueue.Core.SegmentFormat
import Oqueue.Library.Tiling

/-!
# The footer is canonical

The bytes of each field of a footer, what writing one appends and what reading one
accepts. A tail parses to a list of regions exactly when it ends with their footer
and they fill the object's payload, one after another from its first byte.
-/

namespace Oqueue

open Bytes Checked Reader Format Segment Tiling

def Region.offset (self : Region) : Nat :=
  match self.bytes with
  | .full => 0
  | .bounded offset _ => offset

def Region.stop (self : Region) : Nat :=
  match self.bytes with
  | .full => 0
  | .bounded offset length => offset + length

/-- Regions one after another that fill a range of an object's bytes. -/
abbrev RegionTiles (regions : List Region) (low high : Nat) : Prop :=
  Tiles Region.offset Region.stop regions low high

/-- What the footer has a form for: a bounded range, a short name, and an envelope
exactly on a sealed region. -/
structure Region.Formed (region : Region) : Prop where
  topic : Short region.topic.name
  bounded : region.bytes ≠ .full
  agrees : region.alg = .none ↔ region.envelope = none

/-- Every field of a region holds a value of the source's own type. -/
structure Region.Typed (region : Region) : Prop where
  topic : region.topic.Typed
  partition : region.partition < 2 ^ 31
  bytes : region.bytes.Typed
  recordCount : region.recordCount < 2 ^ 32

theorem TopicId.new_eq_ok {name : String} {topic : TopicId} :
    TopicId.new name = .ok topic ↔ topic.name = name ∧ topic.Typed := by
  obtain ⟨held⟩ := topic
  unfold TopicId.new TopicId.Typed
  cases empty : name.isEmpty with
  | true =>
    refine iff_of_false nofun ?_
    rintro ⟨rfl, named⟩
    exact absurd (empty.symm.trans named) (by decide)
  | false =>
    constructor
    · intro h
      cases h
      exact ⟨rfl, empty⟩
    · rintro ⟨rfl, -⟩
      rfl

theorem ByteRange.new_eq_ok {offset length : Nat} {range : ByteRange} :
    ByteRange.new offset length = .ok range ↔ range = .bounded offset length ∧ length ≠ 0 := by
  unfold ByteRange.new
  by_cases none : length = 0
  · rw [if_pos none]
    exact iff_of_false nofun fun h => h.2 none
  · rw [if_neg none, Except.ok.injEq, eq_comm]
    exact (and_iff_left none).symm

namespace Footer

def boundsImage : ByteRange → List UInt8
  | .full => []
  | .bounded offset length => toBeBytes 8 offset ++ toBeBytes 8 length

def envelopeImage : Option RegionEnvelope → List UInt8
  | none => []
  | some envelope => strImage envelope.keyId.id ++ (toBeBytes 4 envelope.wrappedDek.length ++
      (envelope.wrappedDek ++ envelope.nonce))

def regionImage (region : Region) : List UInt8 :=
  strImage region.topic.name ++ (toBeBytes 4 region.partition ++ (toBeBytes 4 region.recordCount ++
    (boundsImage region.bytes ++ (toBeBytes 1 region.alg.code ++ envelopeImage region.envelope))))

def regionsImage (regions : List Region) : List UInt8 := regions.flatMap regionImage

def trailerImage (count footerLen : Nat) : List UInt8 :=
  toBeBytes 4 count ++ (toBeBytes 1 bundleFormatVersion ++ toBeBytes 4 footerLen)

/-- A whole footer, its trailer included. -/
def image (regions : List Region) : List UInt8 :=
  regionsImage regions ++ trailerImage regions.length (regionsImage regions).length

@[simp] theorem length_trailerImage (count footerLen : Nat) :
    (trailerImage count footerLen).length = trailerLen := by
  simp [trailerImage, trailerLen]

theorem length_image (regions : List Region) :
    (image regions).length = (regionsImage regions).length + trailerLen := by
  simp [image]

/-- The lengths a footer's trailer has room for. -/
def Fits (regions : List Region) : Prop :=
  (regionsImage regions).length < 2 ^ 32 ∧ regions.length < 2 ^ 32

instance (value : String) : Decidable (Short value) :=
  inferInstanceAs (Decidable ((utf8 value).length < 2 ^ 16))

instance (regions : List Region) : Decidable (Fits regions) :=
  inferInstanceAs (Decidable ((regionsImage regions).length < 2 ^ 32 ∧ regions.length < 2 ^ 32))

theorem writes_refusing (error : Error) : Writes (refusing error) fun _ => False := by
  intro out out'
  constructor
  · intro h
    cases h
  · rintro ⟨_, ⟨⟩, -⟩

theorem writes_name (value : String) :
    Writes (putName value) fun w => Short value ∧ w = strImage value :=
  Writes.guarded _ (Writes.append _)

theorem writes_length (length : Nat) :
    Writes (putLength length) fun w => length < 2 ^ 32 ∧ w = toBeBytes 4 length :=
  Writes.guarded _ (Writes.append _)

theorem short_keyId (keyId : KeyId) : Short keyId.id := by
  have := keyId.short
  unfold maxKeyIdLen at this
  unfold Short
  omega

theorem wrapped_small (envelope : RegionEnvelope) : envelope.wrappedDek.length < 2 ^ 32 := by
  have := envelope.wrapped.2
  unfold maxWrappedDekLen at this
  omega

theorem writes_envelope (region : Region) : Writes (encodeEnvelope region) fun w =>
    (region.alg = .none ↔ region.envelope = none) ∧ w = envelopeImage region.envelope := by
  obtain ⟨topic, partition, bytes, recordCount, alg, envelope⟩ := region
  cases alg with
  | none =>
    cases envelope with
    | none => exact Writes.nothing.congr fun w => by simp [envelopeImage]
    | some envelope => exact (writes_refusing _).congr fun w => by simp
  | aes256Gcm =>
    cases envelope with
    | none => exact (writes_refusing _).congr fun w => by simp
    | some envelope =>
      refine ((writes_name _).bind ((writes_length _).bind ((Writes.append _).bind
        (Writes.append _)))).congr fun w => ?_
      constructor
      · rintro ⟨_, _, ⟨-, rfl⟩, ⟨_, _, ⟨-, rfl⟩, ⟨_, _, rfl, rfl, rfl⟩, rfl⟩, rfl⟩
        exact ⟨by simp, rfl⟩
      · rintro ⟨-, rfl⟩
        exact ⟨_, _, ⟨short_keyId envelope.keyId, rfl⟩, ⟨_, _, ⟨wrapped_small envelope, rfl⟩,
          ⟨_, _, rfl, rfl, rfl⟩, rfl⟩, rfl⟩

theorem writes_bounds (bytes : ByteRange) :
    Writes (encodeBounds bytes) fun w => bytes ≠ .full ∧ w = boundsImage bytes := by
  cases bytes with
  | full => exact (writes_refusing _).congr fun w => by simp
  | bounded offset length =>
    refine ((Writes.append _).bind (Writes.append _)).congr fun w => ?_
    simp [boundsImage]

theorem writes_region (region : Region) :
    Writes (encodeRegion region) fun w => region.Formed ∧ w = regionImage region := by
  refine ((writes_name _).bind ((Writes.append _).bind ((Writes.append _).bind
    ((writes_bounds _).bind ((Writes.append _).bind (writes_envelope region)))))).congr fun w => ?_
  constructor
  · rintro ⟨_, _, ⟨short, rfl⟩, ⟨_, _, rfl, ⟨_, _, rfl, ⟨_, _, ⟨bounded, rfl⟩, ⟨_, _, rfl,
      ⟨agrees, rfl⟩, rfl⟩, rfl⟩, rfl⟩, rfl⟩, rfl⟩
    exact ⟨⟨short, bounded, agrees⟩, rfl⟩
  · rintro ⟨⟨short, bounded, agrees⟩, rfl⟩
    exact ⟨_, _, ⟨short, rfl⟩, ⟨_, _, rfl, ⟨_, _, rfl, ⟨_, _, ⟨bounded, rfl⟩, ⟨_, _, rfl,
      ⟨agrees, rfl⟩, rfl⟩, rfl⟩, rfl⟩, rfl⟩, rfl⟩

/-- A footer is written of regions it has a form for, when its lengths fit. -/
theorem encodeFooter_eq_ok {regions : List Region} {out bytes : List UInt8} :
    encodeFooter regions out = .ok bytes ↔
      (∀ region ∈ regions, region.Formed) ∧ Fits regions ∧ bytes = out ++ image regions := by
  have written := Writes.each writes_region regions out
  unfold encodeFooter
  rw [Checked.bind_eq_ok]
  constructor
  · rintro ⟨⟨⟨⟩, mid⟩, ran, h⟩
    obtain ⟨_, ⟨formed, rfl⟩, rfl⟩ := (written mid).mp ran
    dsimp only at h
    rw [List.length_append, Nat.add_sub_cancel_left] at h
    split at h
    · rename_i fits
      cases h
      exact ⟨formed, fits, by rw [List.append_assoc]; rfl⟩
    · cases h
  · rintro ⟨formed, fits, rfl⟩
    refine ⟨_, (written _).mpr ⟨_, ⟨formed, rfl⟩, rfl⟩, ?_⟩
    dsimp only
    rw [List.length_append, Nat.add_sub_cancel_left, List.append_assoc]
    exact if_pos fits

theorem reads_text (len : Nat) : Reads (readText len) fun text bytes =>
    (utf8 text).length = len ∧ bytes = utf8 text :=
  Reads.get_bind fun _ => reads_utf8 malformed _ len

theorem reads_keyId (refused : Error → Error) : ∀ name : String,
    Reads (liftM ((KeyId.new name).mapError refused) : Read Error KeyId) fun keyId bytes =>
      keyId.id = name ∧ bytes = [] := by
  intro name
  refine Reads.check.congr fun keyId bytes => ?_
  rw [accepts_mapError, KeyId.new_eq_ok]

theorem reads_wrapped (wrapped : List UInt8) (refused : Error → Error) (keyId : KeyId) :
    ∀ (nonce : List UInt8) (whole : nonce.length = nonceBytes),
    Reads (liftM ((RegionEnvelope.new keyId wrapped nonce whole).mapError refused) :
      Read Error RegionEnvelope) fun envelope bytes =>
        (envelope.keyId = keyId ∧ envelope.wrappedDek = wrapped ∧ envelope.nonce = nonce) ∧
          bytes = [] := by
  intro nonce whole
  refine Reads.check.congr fun envelope bytes => ?_
  rw [accepts_mapError]
  obtain ⟨keyId', wrapped', nonce', bounded, whole'⟩ := envelope
  unfold RegionEnvelope.new
  refine and_congr_left fun _ => ?_
  constructor
  · intro h
    split at h
    · cases h
      exact ⟨rfl, rfl, rfl⟩
    · cases h
  · rintro ⟨rfl, rfl, rfl⟩
    rw [dif_pos bounded]

theorem reads_nonce (wrapped : List UInt8) (keyId : KeyId) : Reads (do
    let nonce ← take malformed nonceBytes
    let cur ← get
    if whole : nonce.length = nonceBytes then
      liftM ((RegionEnvelope.new keyId wrapped nonce whole).mapError
        fun _ => Error.malformedBundleFooter cur.pos)
    else throw (.malformedBundleFooter cur.pos)) fun envelope bytes =>
      (envelope.keyId = keyId ∧ envelope.wrappedDek = wrapped) ∧ bytes = envelope.nonce := by
  refine ((Reads.take malformed nonceBytes).bind (G := fun nonce envelope bytes =>
    nonce.length = nonceBytes ∧ (envelope.keyId = keyId ∧ envelope.wrappedDek = wrapped ∧
      envelope.nonce = nonce) ∧ bytes = []) fun nonce => Reads.get_bind fun cur => ?_).congr
        fun envelope bytes => ?_
  · by_cases whole : nonce.length = nonceBytes
    · rw [dif_pos whole]
      exact (reads_wrapped wrapped _ keyId nonce whole).congr fun envelope bytes => by simp [whole]
    · rw [dif_neg whole]
      exact (Reads.throw _).congr fun envelope bytes => by simp [whole]
  · constructor
    · rintro ⟨nonce, _, _, ⟨-, rfl⟩, ⟨-, ⟨held, same, rfl⟩, rfl⟩, rfl⟩
      exact ⟨⟨held, same⟩, List.append_nil _⟩
    · rintro ⟨⟨held, same⟩, rfl⟩
      exact ⟨_, _, _, ⟨envelope.whole, rfl⟩, ⟨envelope.whole, ⟨held, same, rfl⟩, rfl⟩,
        (List.append_nil _).symm⟩

/-- The bound a claimed length is held to is the envelope's own. -/
theorem reads_bounded (keyId : KeyId) (wrappedLen : Nat) : Reads (do
    if wrappedLen = 0 ∨ maxWrappedDekLen < wrappedLen then
      throw (.malformedBundleFooter (← get).pos)
    else
      let wrapped ← take malformed wrappedLen
      let nonce ← take malformed nonceBytes
      let cur ← get
      if whole : nonce.length = nonceBytes then
        liftM ((RegionEnvelope.new keyId wrapped nonce whole).mapError
          fun _ => Error.malformedBundleFooter cur.pos)
      else throw (.malformedBundleFooter cur.pos)) fun envelope bytes =>
        (envelope.keyId = keyId ∧ envelope.wrappedDek.length = wrappedLen) ∧
          bytes = envelope.wrappedDek ++ envelope.nonce := by
  by_cases outside : wrappedLen = 0 ∨ maxWrappedDekLen < wrappedLen
  · simp only [if_pos outside]
    refine (Reads.get_bind fun cur => Reads.throw _).congr fun envelope bytes => ?_
    refine iff_of_false id ?_
    rintro ⟨⟨-, rfl⟩, -⟩
    have bounds := envelope.wrapped
    omega
  · simp only [if_neg outside]
    refine ((Reads.take malformed wrappedLen).bind fun wrapped => reads_nonce wrapped keyId).congr
      fun envelope bytes => ?_
    constructor
    · rintro ⟨wrapped, _, _, ⟨length, rfl⟩, ⟨⟨held, rfl⟩, rfl⟩, rfl⟩
      exact ⟨⟨held, length⟩, rfl⟩
    · rintro ⟨⟨held, length⟩, rfl⟩
      exact ⟨_, _, _, ⟨length, rfl⟩, ⟨⟨held, rfl⟩, rfl⟩, rfl⟩

theorem reads_envelope : Reads readEnvelope fun envelope bytes =>
    bytes = envelopeImage (some envelope) := by
  refine ((Reads.unsigned malformed 2).bind fun keyLen => Reads.get_bind fun cur =>
    (reads_text keyLen).bind fun name => (reads_keyId _ name).bind fun keyId =>
      (Reads.unsigned malformed 4).bind fun wrappedLen => reads_bounded keyId wrappedLen).congr
        fun envelope bytes => ?_
  constructor
  · rintro ⟨_, _, _, ⟨-, rfl⟩, ⟨_, _, _, ⟨rfl, rfl⟩, ⟨_, _, _, ⟨rfl, rfl⟩, ⟨_, _, _, ⟨-, rfl⟩,
      ⟨⟨rfl, rfl⟩, rfl⟩, rfl⟩, rfl⟩, rfl⟩, rfl⟩
    simp [envelopeImage, strImage]
  · rintro rfl
    refine ⟨_, _, _, ⟨short_keyId envelope.keyId, rfl⟩, ⟨_, _, _, ⟨rfl, rfl⟩, ⟨_, _, _, ⟨rfl, rfl⟩,
      ⟨_, _, _, ⟨wrapped_small envelope, rfl⟩, ⟨⟨rfl, rfl⟩, rfl⟩, rfl⟩, rfl⟩, rfl⟩, ?_⟩
    simp [envelopeImage, strImage]

theorem reads_sealing (alg : RegionAlg) : Reads (readSealing alg) fun envelope bytes =>
    (alg = .none ↔ envelope = none) ∧ bytes = envelopeImage envelope := by
  cases alg with
  | none =>
    refine (Reads.pure none).congr fun envelope bytes => ?_
    cases envelope <;> simp [envelopeImage]
  | aes256Gcm =>
    refine (reads_envelope.bind fun envelope => Reads.pure (some envelope)).congr
      fun envelope bytes => ?_
    constructor
    · rintro ⟨held, _, _, rfl, ⟨rfl, rfl⟩, rfl⟩
      exact ⟨by simp, List.append_nil _⟩
    · rintro ⟨agrees, rfl⟩
      cases envelope with
      | none => simp at agrees
      | some held => exact ⟨held, _, _, rfl, ⟨rfl, rfl⟩, (List.append_nil _).symm⟩

theorem reads_partition (refused : Error) (index : Nat) :
    Reads (liftM (if index < 2 ^ 31 then PartitionId.new index else .error refused) :
      Read Error Nat) fun partition bytes => (index < 2 ^ 31 ∧ partition = index) ∧ bytes = [] := by
  refine Reads.check.congr fun partition bytes => and_congr_left fun _ => ?_
  by_cases inside : index < 2 ^ 31
  · have whole : PartitionId.new index = .ok index := if_neg (by omega)
    rw [if_pos inside, whole, Except.ok.injEq, eq_comm]
    exact (and_iff_right inside).symm
  · rw [if_neg inside]
    exact iff_of_false nofun fun h => inside h.1

theorem reads_region : Reads readRegion fun region bytes =>
    (region.Typed ∧ region.Formed) ∧ bytes = regionImage region := by
  refine ((Reads.unsigned malformed 2).bind fun nameLen => (reads_text nameLen).bind fun name =>
    (Reads.check (x := TopicId.new name)).bind fun topic => (Reads.unsigned malformed 4).bind
      fun index => Reads.get_bind fun cur => (reads_partition _ index).bind fun partition =>
        (Reads.unsigned malformed 4).bind fun recordCount => (Reads.unsigned malformed 8).bind
          fun offset => (Reads.unsigned malformed 8).bind fun length =>
            (Reads.check (x := ByteRange.new offset length)).bind fun range =>
              (Reads.unsigned malformed 1).bind fun code =>
                (Reads.check (x := RegionAlg.fromCode code)).bind fun alg =>
                  (reads_sealing alg).bind fun envelope => Reads.pure
                    (⟨topic, partition, range, recordCount, alg, envelope⟩ : Region)).congr
                      fun region bytes => ?_
  constructor
  · rintro ⟨_, _, _, ⟨small, rfl⟩, ⟨name, _, _, ⟨rfl, rfl⟩, ⟨topic, _, _, ⟨htopic, rfl⟩, ⟨index, _,
      _, ⟨-, rfl⟩, ⟨_, _, _, ⟨⟨hindex, rfl⟩, rfl⟩, ⟨count, _, _, ⟨hcount, rfl⟩, ⟨offset, _, _,
      ⟨hoffset, rfl⟩, ⟨length, _, _, ⟨hlength, rfl⟩, ⟨range, _, _, ⟨hrange, rfl⟩, ⟨code, _, _,
      ⟨-, rfl⟩, ⟨alg, _, _, ⟨halg, rfl⟩, ⟨envelope, _, _, ⟨agrees, rfl⟩, ⟨rfl, rfl⟩, rfl⟩, rfl⟩,
      rfl⟩, rfl⟩, rfl⟩, rfl⟩, rfl⟩, rfl⟩, rfl⟩, rfl⟩, rfl⟩, rfl⟩
    obtain ⟨rfl, named⟩ := TopicId.new_eq_ok.mp htopic
    obtain ⟨rfl, nonzero⟩ := ByteRange.new_eq_ok.mp hrange
    obtain rfl := RegionAlg.fromCode_eq_ok.mp halg
    exact ⟨⟨⟨named, hindex, ⟨⟨hoffset, hlength⟩, nonzero⟩, hcount⟩, ⟨small, nofun, agrees⟩⟩,
      by simp [regionImage, boundsImage, strImage]⟩
  · rintro ⟨⟨typed, formed⟩, rfl⟩
    obtain ⟨topic, partition, range, recordCount, alg, envelope⟩ := region
    obtain ⟨htopic, hpartition, hrange, hcount⟩ := typed
    obtain ⟨short, bounded, agrees⟩ := formed
    cases range with
    | full => exact absurd rfl bounded
    | bounded offset length =>
      obtain ⟨⟨hoffset, hlength⟩, nonzero⟩ := hrange
      have code : alg.code < 256 ^ 1 := by cases alg <;> decide
      refine ⟨_, _, _, ⟨short, rfl⟩, ⟨_, _, _, ⟨rfl, rfl⟩, ⟨topic, _, _,
        ⟨TopicId.new_eq_ok.mpr ⟨rfl, htopic⟩, rfl⟩, ⟨partition, _, _,
        ⟨lt_trans hpartition (by decide), rfl⟩, ⟨_, _, _,
        ⟨⟨hpartition, rfl⟩, rfl⟩, ⟨recordCount, _, _, ⟨hcount, rfl⟩, ⟨offset, _, _, ⟨hoffset, rfl⟩,
        ⟨length, _, _, ⟨hlength, rfl⟩, ⟨_, _, _, ⟨ByteRange.new_eq_ok.mpr ⟨rfl, nonzero⟩, rfl⟩,
        ⟨alg.code, _, _, ⟨code, rfl⟩, ⟨alg, _, _, ⟨RegionAlg.fromCode_eq_ok.mpr rfl, rfl⟩,
        ⟨envelope, _, _, ⟨agrees, rfl⟩, ⟨rfl, rfl⟩, rfl⟩, rfl⟩, rfl⟩, rfl⟩, rfl⟩, rfl⟩, rfl⟩, rfl⟩,
        rfl⟩, rfl⟩, rfl⟩, ?_⟩
      simp [regionImage, boundsImage, strImage]

/-- What the check accepts fills the payload, region after region. -/
theorem checkRegions_eq_ok {regions : List Region} {payloadEnd index nextFree : Nat}
    (small : payloadEnd ≤ u64Max) (typed : ∀ region ∈ regions, region.Typed ∧ region.Formed) :
    checkRegions payloadEnd regions index nextFree = .ok () ↔
      (∀ region ∈ regions, region.recordCount ≠ 0) ∧ RegionTiles regions nextFree payloadEnd := by
  induction regions generalizing index nextFree with
  | nil =>
    unfold checkRegions
    by_cases meets : nextFree = payloadEnd
    · simp [meets]
    · simp [meets]
  | cons region rest ih =>
    obtain ⟨here, formed⟩ := typed region (List.mem_cons_self ..)
    have after := fun region h => typed region (List.mem_cons_of_mem _ h)
    unfold checkRegions
    cases held : region.bytes with
    | full => exact absurd held formed.bounded
    | bounded offset length =>
      have begins : region.offset = offset := by simp [Region.offset, held]
      have ends : region.stop = offset + length := by simp [Region.stop, held]
      have bytes := here.bytes
      rw [held] at bytes
      obtain ⟨-, nonzero⟩ := bytes
      have tiles : RegionTiles (region :: rest) nextFree payloadEnd ↔ offset = nextFree ∧
          nextFree < offset + length ∧ RegionTiles rest (offset + length) payloadEnd := by
        rw [← ends, ← begins]
        exact tiles_cons
      dsimp only
      rw [tiles, List.forall_mem_cons]
      by_cases empty : region.recordCount = 0
      · rw [if_pos empty]
        exact iff_of_false nofun fun h => h.1.1 empty
      · rw [if_neg empty]
        by_cases wide : u64Max < offset + length
        · rw [if_pos wide]
          refine iff_of_false nofun fun h => ?_
          have := h.2.2.2.le
          omega
        · rw [if_neg wide]
          by_cases gap : offset ≠ nextFree ∨ payloadEnd < offset + length
          · rw [if_pos gap]
            refine iff_of_false nofun fun h => ?_
            have := h.2.2.2.le
            have := h.2.1
            omega
          · rw [if_neg gap, ih after]
            refine ⟨fun h => ⟨⟨empty, h.1⟩, by omega, by omega, h.2⟩, fun h => ⟨h.1.2, h.2.2.2⟩⟩

theorem trailer_split {trailer : List UInt8} (whole : trailer.length = trailerLen)
    (version : fromBeBytes ((trailer.drop 4).take 1) = bundleFormatVersion) :
    trailer = trailerImage (fromBeBytes (trailer.take 4)) (fromBeBytes (trailer.drop 5)) := by
  unfold trailerLen at whole
  have count : toBeBytes 4 (fromBeBytes (trailer.take 4)) = trailer.take 4 :=
    toBeBytes_of_length (by simp [whole])
  have middle : toBeBytes 1 (fromBeBytes ((trailer.drop 4).take 1)) = (trailer.drop 4).take 1 :=
    toBeBytes_of_length (by simp [whole])
  have length : toBeBytes 4 (fromBeBytes (trailer.drop 5)) = trailer.drop 5 :=
    toBeBytes_of_length (by simp [whole])
  unfold trailerImage
  rw [← version, count, middle, length, ← List.append_assoc, ← List.take_add, List.take_append_drop]

theorem readRegions_eq_ok {count : Nat} {body : List UInt8} {regions : List Region} {cur : Cursor} :
    (readMany readRegion count).run { buf := body } = .ok (regions, cur) ∧ cur.pos = body.length ↔
      (regions.length = count ∧ ∀ region ∈ regions, region.Typed ∧ region.Formed) ∧
        body = regionsImage regions ∧ cur = { buf := body, pos := body.length } := by
  have accepted := Reads.many reads_region count { buf := body } regions cur
  rw [accepted]
  constructor
  · rintro ⟨⟨_, rest, ⟨valid, rfl⟩, here, rfl⟩, whole⟩
    change body = regionsImage regions ++ rest at here
    change 0 + (regionsImage regions).length = body.length at whole
    have lengths := congrArg List.length here
    rw [List.length_append] at lengths
    have none : rest = [] := List.length_eq_zero_iff.mp (by omega)
    rw [none, List.append_nil] at here
    exact ⟨valid, here, congrArg (Cursor.mk body) whole⟩
  · rintro ⟨valid, rfl, rfl⟩
    exact ⟨⟨_, [], ⟨valid, rfl⟩, (List.append_nil _).symm, by simp [regionsImage]⟩, rfl⟩

end Footer

open Footer

/-- What is read before a trailer: as much as it says the footer has. -/
def readBefore (front : List UInt8) (count footerLen objectSize : Nat) :
    Except Error (List Region) := do
  let (regions, cur) ← (readMany readRegion count).run { buf := front.drop (front.length - footerLen) }
  if cur.pos ≠ footerLen then .error (.malformedBundleFooter cur.pos)
  else if objectSize < footerLen + trailerLen then .error (.malformedBundleFooter 0)
  else
    let () ← checkRegions (objectSize - (footerLen + trailerLen)) regions 0 0
    return regions

/-- What a tail that ends with a trailer is parsed to. -/
theorem parseFooter_trailer {front : List UInt8} {count footerLen objectSize : Nat}
    (counts : count < 2 ^ 32) (lengths : footerLen < 2 ^ 32) :
    parseFooter (front ++ trailerImage count footerLen) objectSize =
      if count = 0 then .error .emptyBundle
      else if front.length < footerLen then
        .error (shortTailOrCorrupt (front.length + trailerLen) (footerLen + trailerLen) objectSize)
      else readBefore front count footerLen objectSize := by
  have width : (front ++ trailerImage count footerLen).length = front.length + trailerLen := by
    rw [List.length_append, length_trailerImage]
  have at_ : (front ++ trailerImage count footerLen).drop front.length =
      trailerImage count footerLen := List.drop_left
  have before : (front ++ trailerImage count footerLen).take front.length = front := List.take_left
  have first : fromBeBytes ((trailerImage count footerLen).take 4) = count := by
    have cut : (trailerImage count footerLen).take 4 = toBeBytes 4 count :=
      List.take_left' (length_toBeBytes ..)
    rw [cut, fromBeBytes_toBeBytes]
    exact Nat.mod_eq_of_lt counts
  have second : fromBeBytes (((trailerImage count footerLen).drop 4).take 1) =
      bundleFormatVersion := by
    have cut : (trailerImage count footerLen).drop 4 =
        toBeBytes 1 bundleFormatVersion ++ toBeBytes 4 footerLen :=
      List.drop_left' (length_toBeBytes ..)
    rw [cut, List.take_left' (length_toBeBytes ..)]
    rfl
  have third : fromBeBytes ((trailerImage count footerLen).drop 5) = footerLen := by
    have cut : (trailerImage count footerLen).drop 5 = toBeBytes 4 footerLen := by
      unfold trailerImage
      rw [← List.append_assoc]
      exact List.drop_left' (by simp)
    rw [cut, fromBeBytes_toBeBytes]
    exact Nat.mod_eq_of_lt lengths
  unfold parseFooter
  dsimp only
  rw [width, if_neg (Nat.not_lt.mpr (Nat.le_add_left ..)), Nat.add_sub_cancel, at_, before, first,
    second, third, if_neg (not_not.mpr rfl)]
  rfl

/-- A tail parses to regions exactly when it ends with their footer, each is one the
source's types hold with some records, and they fill what the object has before it. -/
theorem parseFooter_eq_ok {tail : List UInt8} {objectSize : Nat} {regions : List Region}
    (small : objectSize ≤ u64Max) : parseFooter tail objectSize = .ok regions ↔
      regions ≠ [] ∧ (∀ region ∈ regions, region.Typed ∧ region.Formed ∧ region.recordCount ≠ 0) ∧
        Fits regions ∧ (∃ before, tail = before ++ image regions) ∧
        (image regions).length ≤ objectSize ∧
        RegionTiles regions 0 (objectSize - (image regions).length) := by
  have length := length_image regions
  constructor
  · intro h
    obtain ⟨front, count, footerLen, rfl, counts, lengths⟩ : ∃ front count footerLen,
        tail = front ++ trailerImage count footerLen ∧ count < 2 ^ 32 ∧ footerLen < 2 ^ 32 := by
      unfold parseFooter at h
      dsimp only at h
      split at h
      · cases h
      rename_i wide
      split at h
      · cases h
      rename_i version
      have whole : (tail.drop (tail.length - trailerLen)).length = trailerLen := by
        rw [List.length_drop]
        omega
      have trailer := trailer_split whole (not_not.mp version)
      have short : ∀ field : List UInt8, field.length ≤ 4 → fromBeBytes field < 2 ^ 32 :=
        fun field short => fromBeBytes_lt_of_length_le short
      refine ⟨_, _, _, ((List.take_append_drop (tail.length - trailerLen) tail).symm.trans
        (congrArg _ trailer)), short _ (List.length_take_le ..), short _ ?_⟩
      rw [List.length_drop, whole]
      decide
    rw [parseFooter_trailer counts lengths] at h
    split at h
    · cases h
    rename_i some
    split at h
    · cases h
    rename_i reaches
    obtain ⟨⟨read, cur⟩, ran, h⟩ := Checked.bind_eq_ok.mp h
    dsimp only at h
    split at h
    · cases h
    rename_i whole
    split at h
    · cases h
    rename_i holds
    obtain ⟨⟨⟩, checked, h⟩ := Checked.bind_eq_ok.mp h
    cases h
    have width : (front.drop (front.length - footerLen)).length = footerLen := by
      rw [List.length_drop]
      omega
    obtain ⟨⟨rfl, valid⟩, body, -⟩ := readRegions_eq_ok.mp ⟨ran, (not_not.mp whole).trans width.symm⟩
    rw [body] at width
    subst width
    obtain ⟨present, tiles⟩ := (checkRegions_eq_ok (by omega) valid).mp checked
    refine ⟨fun empty => some (by rw [empty]; rfl), fun region hregion =>
      ⟨(valid region hregion).1, (valid region hregion).2, present region hregion⟩,
      ⟨lengths, counts⟩, ⟨front.take (front.length - (regionsImage regions).length), ?_⟩, by omega,
      by rwa [length]⟩
    have both := (List.take_append_drop (front.length - (regionsImage regions).length) front).symm
    rw [body] at both
    unfold image
    rw [← List.append_assoc, ← both]
  · rintro ⟨some, valid, fits, ⟨before, rfl⟩, holds, tiles⟩
    have here : (before ++ regionsImage regions).drop ((before ++ regionsImage regions).length -
        (regionsImage regions).length) = regionsImage regions := by
      rw [List.length_append, Nat.add_sub_cancel]
      exact List.drop_left
    have typed : ∀ region ∈ regions, region.Typed ∧ region.Formed :=
      fun region h => ⟨(valid region h).1, (valid region h).2.1⟩
    have ran := (readRegions_eq_ok.mpr ⟨⟨rfl, typed⟩, rfl, rfl⟩).1
    have checked := (@checkRegions_eq_ok _ _ 0 _ (by omega) typed).mpr
      ⟨fun region h => (valid region h).2.2, tiles⟩
    unfold image
    rw [← List.append_assoc, parseFooter_trailer fits.2 fits.1,
      if_neg (fun none => some (List.length_eq_zero_iff.mp none)),
      if_neg (by rw [List.length_append]; omega)]
    unfold readBefore
    rw [here, ran, bind_ok]
    dsimp only
    rw [if_neg (not_not.mpr rfl), if_neg (by omega), ← length, checked]
    rfl

end Oqueue
