import Oqueue.Core.FooterFormat
import Oqueue.Core.WriterEpoch

/-!
# What a region is sealed under

A nonce is a writer's epoch, an object of that writer and a region of that object, each
in a field of its own; the counters behind the last two only advance. The associated
data of a region names the region, its topic and its key.
-/

namespace Oqueue

open Segment Bytes

namespace Nonce

def maxObjectSequence : Nat := 2 ^ 40 - 1

def maxRegionIndex : Nat := 2 ^ 16 - 1

/-- The twelve bytes of a nonce: the low five of the epoch and of the sequence, and the
low two of the region. -/
def image (epoch sequence region : Nat) : List UInt8 :=
  (toBeBytes 8 epoch).drop 3 ++ (toBeBytes 8 sequence).drop 3 ++ (toBeBytes 4 region).drop 2

end Nonce

structure NonceSource where
  writerEpoch : Nat
  objectSequence : Nat
  nextRegion : Nat
  deriving DecidableEq, Repr

namespace NonceSource

def new (writerEpoch objectSequence : Nat) : NonceSource := ⟨writerEpoch, objectSequence, 0⟩

/-- The nonce of one region, in order; a refused call leaves the source as it was. -/
def forRegion (self : NonceSource) (regionIndex : Nat) :
    Except Error (List UInt8) × NonceSource :=
  if Nonce.maxRegionIndex < regionIndex then (.error (.nonceRegionOutOfRange regionIndex), self)
  else if regionIndex ≠ self.nextRegion then
    (.error (.nonceRegionOutOfOrder self.nextRegion regionIndex), self)
  else
    (.ok (Nonce.image self.writerEpoch self.objectSequence regionIndex),
      { self with nextRegion := regionIndex + 1 })

end NonceSource

/-- Mints the source of every object one writer epoch writes. -/
structure NonceMinter where
  writerEpoch : Nat
  nextObject : Nat
  deriving DecidableEq, Repr

namespace NonceMinter

def new (writerEpoch : Nat) : Except Error NonceMinter :=
  if WriterEpoch.maxWriterEpoch < writerEpoch then
    .error (.nonceWriterEpochOutOfRange writerEpoch)
  else .ok ⟨writerEpoch, 0⟩

/-- The next object's source; a refused call leaves the minter as it was. -/
def mint (self : NonceMinter) : Except Error NonceSource × NonceMinter :=
  if Nonce.maxObjectSequence < self.nextObject then
    (.error (.nonceObjectSequenceOutOfRange self.nextObject), self)
  else
    (.ok (.new self.writerEpoch self.nextObject), { self with nextObject := self.nextObject + 1 })

end NonceMinter

theorem NonceMinter.mint_cases (minter : NonceMinter) :
    (∃ error, minter.mint = (.error error, minter)) ∨
    (minter.nextObject ≤ Nonce.maxObjectSequence ∧
      minter.mint = (.ok (.new minter.writerEpoch minter.nextObject),
        { minter with nextObject := minter.nextObject + 1 })) := by
  unfold mint
  split
  case isTrue => exact Or.inl ⟨_, rfl⟩
  case isFalse room => exact Or.inr ⟨Nat.not_lt.mp room, rfl⟩

theorem NonceSource.forRegion_cases (source : NonceSource) (regionIndex : Nat) :
    (∃ error, source.forRegion regionIndex = (.error error, source)) ∨
    (source.nextRegion ≤ Nonce.maxRegionIndex ∧
      source.forRegion regionIndex =
        (.ok (Nonce.image source.writerEpoch source.objectSequence source.nextRegion),
          { source with nextRegion := source.nextRegion + 1 })) := by
  unfold forRegion
  split
  case isTrue => exact Or.inl ⟨_, rfl⟩
  case isFalse room =>
    split
    case isTrue => exact Or.inl ⟨_, rfl⟩
    case isFalse next =>
      obtain rfl : regionIndex = source.nextRegion := not_not.mp next
      exact Or.inr ⟨Nat.not_lt.mp room, rfl⟩

namespace Minting

/-- Everything that can mint, the epochs handed out so far, and the nonces minted. -/
structure World where
  epochs : List Nat := []
  minters : List NonceMinter := []
  sources : List NonceSource := []
  minted : List (List UInt8) := []

inductive Action where
  | create (epoch : Nat)
  | nextObject (minter : Nat)
  | forRegion (source regionIndex : Nat)

/-- One call. An epoch is handed out once, and a call is on something that exists. -/
def step (w : World) : Action → Option World
  | .create epoch =>
    if epoch ∈ w.epochs then none
    else
      match NonceMinter.new epoch with
      | .error _ => some { w with epochs := epoch :: w.epochs }
      | .ok minter =>
        some { w with epochs := epoch :: w.epochs, minters := w.minters ++ [minter] }
  | .nextObject i => do
    let minter ← w.minters[i]?
    match minter.mint with
    | (.error _, minter) => some { w with minters := w.minters.set i minter }
    | (.ok source, minter) =>
      some { w with minters := w.minters.set i minter, sources := w.sources ++ [source] }
  | .forRegion j regionIndex => do
    let source ← w.sources[j]?
    match source.forRegion regionIndex with
    | (.error _, source) => some { w with sources := w.sources.set j source }
    | (.ok nonce, source) =>
      some { w with sources := w.sources.set j source, minted := nonce :: w.minted }

end Minting

theorem drop_toBeBytes (skipped kept value : Nat) :
    (toBeBytes (skipped + kept) value).drop skipped = toBeBytes kept value := by
  induction kept generalizing value with
  | zero => exact List.drop_eq_nil_of_le (length_toBeBytes ..).le
  | succ kept ih =>
    rw [← Nat.add_assoc, toBeBytes, toBeBytes, ← ih (value / 256)]
    refine List.drop_append_of_le_length ?_
    rw [length_toBeBytes]
    exact Nat.le_add_right ..

theorem toBeBytes_inj {count a b : Nat} (ha : a < 256 ^ count) (hb : b < 256 ^ count)
    (same : toBeBytes count a = toBeBytes count b) : a = b := by
  have read := congrArg fromBeBytes same
  rwa [fromBeBytes_toBeBytes, fromBeBytes_toBeBytes, Nat.mod_eq_of_lt ha, Nat.mod_eq_of_lt hb]
    at read

theorem Nonce.image_eq (epoch sequence region : Nat) : Nonce.image epoch sequence region =
    toBeBytes 5 epoch ++ toBeBytes 5 sequence ++ toBeBytes 2 region := by
  unfold Nonce.image
  rw [show (8 : Nat) = 3 + 5 from rfl, drop_toBeBytes, drop_toBeBytes, show (4 : Nat) = 2 + 2 from rfl,
    drop_toBeBytes]

theorem Nonce.image_inj {epoch sequence region epoch' sequence' region' : Nat}
    (he : epoch ≤ WriterEpoch.maxWriterEpoch) (he' : epoch' ≤ WriterEpoch.maxWriterEpoch)
    (hs : sequence ≤ maxObjectSequence) (hs' : sequence' ≤ maxObjectSequence)
    (hr : region ≤ maxRegionIndex) (hr' : region' ≤ maxRegionIndex)
    (same : image epoch sequence region = image epoch' sequence' region') :
    epoch = epoch' ∧ sequence = sequence' ∧ region = region' := by
  unfold WriterEpoch.maxWriterEpoch at he he'
  unfold maxObjectSequence at hs hs'
  unfold maxRegionIndex at hr hr'
  rw [image_eq, image_eq] at same
  obtain ⟨front, last⟩ := List.append_inj' same (by rw [length_toBeBytes, length_toBeBytes])
  obtain ⟨first, middle⟩ := List.append_inj' front (by rw [length_toBeBytes, length_toBeBytes])
  refine ⟨toBeBytes_inj ?_ ?_ first, toBeBytes_inj ?_ ?_ middle, toBeBytes_inj ?_ ?_ last⟩
  all_goals omega

namespace Minting

/-- The field values of a source's next region, and of those before it, are its own. -/
structure World.Distinct (w : World) : Prop where
  epochs : (w.minters.map NonceMinter.writerEpoch).Nodup
  known : ∀ minter ∈ w.minters, minter.writerEpoch ∈ w.epochs ∧
    minter.writerEpoch ≤ WriterEpoch.maxWriterEpoch
  objects : (w.sources.map fun s => (s.writerEpoch, s.objectSequence)).Nodup
  issued : ∀ source ∈ w.sources, source.objectSequence ≤ Nonce.maxObjectSequence ∧
    source.writerEpoch ≤ WriterEpoch.maxWriterEpoch ∧ source.writerEpoch ∈ w.epochs
  behind : ∀ source ∈ w.sources, ∀ minter ∈ w.minters, source.writerEpoch = minter.writerEpoch →
    source.objectSequence < minter.nextObject
  minted : ∀ nonce ∈ w.minted, ∃ source ∈ w.sources, ∃ region, region < source.nextRegion ∧
    region ≤ Nonce.maxRegionIndex ∧
    nonce = Nonce.image source.writerEpoch source.objectSequence region
  once : w.minted.Nodup

theorem World.Distinct.start : World.Distinct {} where
  epochs := List.nodup_nil
  known := fun _ none => absurd none List.not_mem_nil
  objects := List.nodup_nil
  issued := fun _ none => absurd none List.not_mem_nil
  behind := fun _ none => absurd none List.not_mem_nil
  minted := fun _ none => absurd none List.not_mem_nil
  once := List.nodup_nil

theorem map_set_of_same {α β : Type} (f : α → β) {items : List α} {i : Nat} {old new : α}
    (held : items[i]? = some old) (same : f new = f old) : (items.set i new).map f = items.map f := by
  rw [List.map_set, same]
  refine List.ext_getElem? fun j => ?_
  rw [List.getElem?_set]
  split
  · rename_i here
    subst here
    rw [List.getElem?_map, held]
    simp [(List.getElem?_eq_some_iff.mp held).1]
  · rfl

section
variable {w : World}

/-- A new minter's epoch was never handed out, so nothing is behind it. -/
theorem World.Distinct.create (distinct : w.Distinct) {epoch : Nat} (fresh : epoch ∉ w.epochs)
    {minter : NonceMinter} (made : NonceMinter.new epoch = .ok minter) :
    World.Distinct { w with epochs := epoch :: w.epochs, minters := w.minters ++ [minter] } := by
  unfold NonceMinter.new at made
  split at made
  case isTrue => cases made
  case isFalse fits =>
    cases made
    exact {
      epochs := by
        rw [List.map_append]
        refine List.Nodup.append distinct.epochs (List.nodup_singleton _) ?_
        intro e old new
        obtain ⟨minter, among, rfl⟩ := List.mem_map.mp old
        have here : minter.writerEpoch = epoch := List.mem_singleton.mp new
        exact fresh (here ▸ (distinct.known minter among).1)
      known := by
        intro minter among
        rcases List.mem_append.mp among with old | new
        · have := distinct.known minter old
          exact ⟨List.mem_cons_of_mem _ this.1, this.2⟩
        · rcases List.mem_singleton.mp new with rfl
          exact ⟨List.mem_cons_self .., Nat.not_lt.mp fits⟩
      objects := distinct.objects
      issued := fun source among =>
        have := distinct.issued source among
        ⟨this.1, this.2.1, List.mem_cons_of_mem _ this.2.2⟩
      behind := by
        intro source among minter there same
        rcases List.mem_append.mp there with old | new
        · exact distinct.behind source among minter old same
        · rcases List.mem_singleton.mp new with rfl
          have here : source.writerEpoch = epoch := same
          exact absurd (here ▸ (distinct.issued source among).2.2) fresh
      minted := distinct.minted
      once := distinct.once }

theorem World.Distinct.refused (distinct : w.Distinct) (epoch : Nat) :
    World.Distinct { w with epochs := epoch :: w.epochs } where
  epochs := distinct.epochs
  known := fun minter among =>
    have := distinct.known minter among
    ⟨List.mem_cons_of_mem _ this.1, this.2⟩
  objects := distinct.objects
  issued := fun source among =>
    have := distinct.issued source among
    ⟨this.1, this.2.1, List.mem_cons_of_mem _ this.2.2⟩
  behind := distinct.behind
  minted := distinct.minted
  once := distinct.once

/-- A new source is the only one of its object, and its minter has moved past it. -/
theorem World.Distinct.mint (distinct : w.Distinct) {i : Nat} {minter : NonceMinter}
    (held : w.minters[i]? = some minter) (room : minter.nextObject ≤ Nonce.maxObjectSequence) :
    World.Distinct { w with
      minters := w.minters.set i { minter with nextObject := minter.nextObject + 1 }
      sources := w.sources ++ [.new minter.writerEpoch minter.nextObject] } := by
  have among := List.mem_of_getElem? held
  have known := distinct.known minter among
  have kept : (w.minters.set i { minter with nextObject := minter.nextObject + 1 }).map
      NonceMinter.writerEpoch = w.minters.map NonceMinter.writerEpoch :=
    map_set_of_same _ held rfl
  have moved : { minter with nextObject := minter.nextObject + 1 } ∈
      w.minters.set i { minter with nextObject := minter.nextObject + 1 } :=
    List.mem_set (List.getElem?_eq_some_iff.mp held).1 _
  exact {
    epochs := kept ▸ distinct.epochs
    known := by
      intro other there
      rcases List.mem_or_eq_of_mem_set there with old | rfl
      · exact distinct.known other old
      · exact known
    objects := by
      rw [List.map_append]
      refine List.Nodup.append distinct.objects (List.nodup_singleton _) ?_
      intro object old new
      obtain ⟨source, there, rfl⟩ := List.mem_map.mp old
      have here : (source.writerEpoch, source.objectSequence) =
        (minter.writerEpoch, minter.nextObject) := List.mem_singleton.mp new
      have := distinct.behind source there minter among (Prod.mk.inj here).1
      have := (Prod.mk.inj here).2
      omega
    issued := by
      intro source there
      rcases List.mem_append.mp there with old | new
      · exact distinct.issued source old
      · rcases List.mem_singleton.mp new with rfl
        exact ⟨room, known.2, known.1⟩
    behind := by
      intro source there other standing shared
      by_cases own : other.writerEpoch = minter.writerEpoch
      · -- The only minter of this epoch is the one that moved.
        have here : other = { minter with nextObject := minter.nextObject + 1 } :=
          List.inj_on_of_nodup_map (kept ▸ distinct.epochs) standing moved own
        subst here
        rcases List.mem_append.mp there with before | new
        · exact (distinct.behind source before minter among shared).trans (Nat.lt_succ_self _)
        · rcases List.mem_singleton.mp new with rfl
          exact Nat.lt_succ_self _
      · rcases List.mem_or_eq_of_mem_set standing with old | rfl
        · rcases List.mem_append.mp there with before | new
          · exact distinct.behind source before other old shared
          · rcases List.mem_singleton.mp new with rfl
            exact absurd shared.symm own
        · exact absurd rfl own
    minted := by
      intro nonce there
      obtain ⟨source, old, rest⟩ := distinct.minted nonce there
      exact ⟨source, List.mem_append_left _ old, rest⟩
    once := distinct.once }

/-- A minted nonce is new: its region is the one its source had not reached. -/
theorem World.Distinct.sealed (distinct : w.Distinct) {j : Nat} {source : NonceSource}
    (held : w.sources[j]? = some source) (room : source.nextRegion ≤ Nonce.maxRegionIndex) :
    World.Distinct { w with
      sources := w.sources.set j { source with nextRegion := source.nextRegion + 1 }
      minted := Nonce.image source.writerEpoch source.objectSequence source.nextRegion ::
        w.minted } := by
  have among := List.mem_of_getElem? held
  have issued := distinct.issued source among
  have kept : (w.sources.set j { source with nextRegion := source.nextRegion + 1 }).map
      (fun s => (s.writerEpoch, s.objectSequence)) =
        w.sources.map fun s => (s.writerEpoch, s.objectSequence) :=
    map_set_of_same _ held rfl
  have moved : { source with nextRegion := source.nextRegion + 1 } ∈
      w.sources.set j { source with nextRegion := source.nextRegion + 1 } :=
    List.mem_set (List.getElem?_eq_some_iff.mp held).1 _
  exact {
    epochs := distinct.epochs
    known := distinct.known
    objects := kept ▸ distinct.objects
    issued := by
      intro other there
      rcases List.mem_or_eq_of_mem_set there with old | rfl
      · exact distinct.issued other old
      · exact issued
    behind := by
      intro other there minter standing shared
      rcases List.mem_or_eq_of_mem_set there with old | rfl
      · exact distinct.behind other old minter standing shared
      · exact distinct.behind source among minter standing shared
    minted := by
      intro nonce there
      rcases List.mem_cons.mp there with rfl | there
      · exact ⟨_, moved, source.nextRegion, Nat.lt_succ_self _, room, rfl⟩
      · obtain ⟨other, old, region, before, fits, rfl⟩ := distinct.minted nonce there
        by_cases own : (other.writerEpoch, other.objectSequence) =
            (source.writerEpoch, source.objectSequence)
        · have here : other = source := List.inj_on_of_nodup_map distinct.objects old among own
          subst here
          exact ⟨_, moved, region, before.trans (Nat.lt_succ_self _), fits, rfl⟩
        · obtain ⟨k, at_⟩ := List.mem_iff_getElem?.mp old
          refine ⟨other, List.mem_iff_getElem?.mpr ⟨k, ?_⟩, region, before, fits, rfl⟩
          rw [List.getElem?_set_ne, at_]
          rintro rfl
          rw [held] at at_
          exact own (Option.some.inj at_ ▸ rfl)
    once := by
      refine List.nodup_cons.mpr ⟨?_, distinct.once⟩
      intro there
      obtain ⟨other, old, region, before, fits, same⟩ := distinct.minted _ there
      have theirs := distinct.issued other old
      obtain ⟨epoch, sequence, here⟩ := Nonce.image_inj issued.2.1 theirs.2.1 issued.1 theirs.1
        room fits same
      have own : other = source := List.inj_on_of_nodup_map distinct.objects old among
        (Prod.ext epoch.symm sequence.symm)
      subst own
      omega }

theorem set_self_of_getElem? {α : Type} {items : List α} {i : Nat} {item : α}
    (held : items[i]? = some item) : items.set i item = items := by
  obtain ⟨inside, rfl⟩ := List.getElem?_eq_some_iff.mp held
  exact List.set_getElem_self inside

/-- Every call keeps what has been minted told apart. -/
theorem World.Distinct.step (distinct : w.Distinct) {action : Action} {w' : World}
    (h : step w action = some w') : w'.Distinct := by
  cases action with
  | create epoch =>
    unfold Minting.step at h
    dsimp only at h
    split at h
    case isTrue => cases h
    case isFalse fresh =>
      cases made : NonceMinter.new epoch with
      | error error =>
        rw [made] at h
        cases h
        exact distinct.refused epoch
      | ok minter =>
        rw [made] at h
        cases h
        exact distinct.create fresh made
  | nextObject i =>
    obtain ⟨minter, held, made⟩ := Option.bind_eq_some_iff.mp h
    rcases minter.mint_cases with ⟨error, refused⟩ | ⟨room, next⟩
    · rw [refused] at made
      cases made
      rw [set_self_of_getElem? held]
      exact distinct
    · rw [next] at made
      cases made
      exact distinct.mint held room
  | forRegion j regionIndex =>
    obtain ⟨source, held, made⟩ := Option.bind_eq_some_iff.mp h
    rcases source.forRegion_cases regionIndex with ⟨error, refused⟩ | ⟨room, next⟩
    · rw [refused] at made
      cases made
      rw [set_self_of_getElem? held]
      exact distinct
    · rw [next] at made
      cases made
      exact distinct.sealed held room

end

end Minting

/-- `oqueue:region:v1` -/
def aadDomain : List UInt8 :=
  [111, 113, 117, 101, 117, 101, 58, 114, 101, 103, 105, 111, 110, 58, 118, 49]

/-- What a region's associated data says, each number within its field. -/
structure RegionAad where
  topic : TopicId
  partition : Nat
  regionIndex : Nat
  recordCount : Nat
  alg : RegionAlg
  keyId : KeyId
  topicFits : (utf8 topic.name).length < 2 ^ 64
  partitionFits : partition < 2 ^ 31
  regionFits : regionIndex < 2 ^ 32
  countFits : recordCount < 2 ^ 32

namespace RegionAad

def encode (self : RegionAad) : List UInt8 :=
  aadDomain ++ toBeBytes 8 (utf8 self.topic.name).length ++ utf8 self.topic.name ++
    toBeBytes 4 self.partition ++ toBeBytes 4 self.regionIndex ++ toBeBytes 4 self.recordCount ++
    [UInt8.ofNat self.alg.code] ++ toBeBytes 8 (utf8 self.keyId.id).length ++ utf8 self.keyId.id

end RegionAad

theorem RegionAlg.code_inj {a b : RegionAlg}
    (same : UInt8.ofNat a.code = UInt8.ofNat b.code) : a = b := by
  cases a <;> cases b <;> first | rfl | (exact absurd same (by decide))

theorem lengthed_inj {a b rest rest' : List UInt8} (ha : a.length < 2 ^ 64) (hb : b.length < 2 ^ 64)
    (same : toBeBytes 8 a.length ++ (a ++ rest) = toBeBytes 8 b.length ++ (b ++ rest')) :
    a = b ∧ rest = rest' := by
  obtain ⟨lengths, later⟩ := List.append_inj same (by rw [length_toBeBytes, length_toBeBytes])
  exact List.append_inj later (toBeBytes_inj (by omega) (by omega) lengths)

/-- Regions that differ have different associated data. -/
theorem RegionAad.encode_injective : Function.Injective RegionAad.encode := by
  rintro ⟨topic, partition, region, count, alg, key, hTopic, hPartition, hRegion, hCount⟩
    ⟨topic', partition', region', count', alg', key', hTopic', hPartition', hRegion', hCount'⟩ same
  have short : ∀ key : KeyId, (utf8 key.id).length < 2 ^ 64 := by
    intro key
    have := key.short
    unfold maxKeyIdLen at this
    omega
  unfold RegionAad.encode at same
  simp only [List.append_assoc] at same
  have whole := List.append_cancel_left same
  obtain ⟨names, whole⟩ := lengthed_inj hTopic hTopic' whole
  have width : ∀ value value' : Nat, (toBeBytes 4 value).length = (toBeBytes 4 value').length :=
    fun _ _ => by rw [length_toBeBytes, length_toBeBytes]
  obtain ⟨partitions, whole⟩ := List.append_inj whole (width ..)
  obtain ⟨regions, whole⟩ := List.append_inj whole (width ..)
  obtain ⟨counts, whole⟩ := List.append_inj whole (width ..)
  obtain ⟨algs, whole⟩ := List.append_inj whole rfl
  have keys : key.id = key'.id := by
    have ends : toBeBytes 8 (utf8 key.id).length ++ (utf8 key.id ++ []) =
        toBeBytes 8 (utf8 key'.id).length ++ (utf8 key'.id ++ []) := by
      rw [List.append_nil, List.append_nil]
      exact whole
    exact utf8_inj (lengthed_inj (short key) (short key') ends).1
  have topics : topic.name = topic'.name := utf8_inj names
  obtain rfl : topic = topic' := by
    cases topic
    cases topic'
    exact congrArg TopicId.mk topics
  obtain rfl : key = key' := by
    cases key
    cases key'
    cases keys
    rfl
  obtain rfl : partition = partition' := toBeBytes_inj (by omega) (by omega) partitions
  obtain rfl : region = region' := toBeBytes_inj (by omega) (by omega) regions
  obtain rfl : count = count' := toBeBytes_inj (by omega) (by omega) counts
  obtain rfl : alg = alg' := RegionAlg.code_inj (List.singleton_inj.mp algs)
  rfl

/-- What a region is sealed under is its own: no run of the minters repeats a nonce, and
no two regions share their associated data. -/
theorem sealing_inputs_distinct :
    (∀ actions w, Steps.run Minting.step {} actions = some w → w.minted.Nodup) ∧
      Function.Injective RegionAad.encode := by
  refine ⟨fun actions w ran => ?_, RegionAad.encode_injective⟩
  exact (Steps.run_invariant Minting.World.Distinct
    (fun _ _ _ distinct h => distinct.step h) Minting.World.Distinct.start ran).once

end Oqueue
