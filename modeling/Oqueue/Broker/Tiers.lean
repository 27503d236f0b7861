import Oqueue.Broker.GapFree
import Oqueue.Broker.RegionSlice

/-!
# Whether the tiers of a read agree

A tail entry and a manifest's name a range of bytes, and what a read of them serves is that
range. A history entry names an object, and its read goes by the footer and the key domain. So
the tiers agree on a span exactly when its region is the partition's only one and its domain's,
or when no tier can stamp it.
-/

namespace Oqueue.Broker

open Checked Codec Footer Tiling

/-- A store that has an object answers any range inside it. -/
structure Keeps (store : ObjectKey → ByteRange → Except Error (List UInt8)) (key : ObjectKey)
    (whole : List UInt8) : Prop where
  full : store key .full = .ok whole
  bounded : ∀ offset length, offset + length ≤ whole.length →
    store key (.bounded offset length) = .ok ((whole.drop offset).take length)

namespace Cluster

variable {self : Cluster} {topic : TopicId} {partition : Nat}

def answerOf : Except ReadFailure Read → Except Error (List UInt8)
  | .ok read => .ok read.records
  | .error failure => .error failure.error

/-- The first of these batches, as a read with nothing to spend serves it. -/
def readOne (self : Cluster) (topic : TopicId) (partition : Nat) (batches : List IndexedBatch)
    (objects : FetchedObjects) : Except Error (List UInt8) :=
  answerOf (self.readPage topic partition ⟨0, true⟩ batches [] 0 objects).1

/-- A batch's bytes with its offset stamped into them. -/
def stampedContent (self : Cluster) (topic : TopicId) (partition : Nat) (batch : IndexedBatch) :
    Except Error (List UInt8) := do
  let blob ← self.content topic partition batch
  (rewriteBaseOffset blob batch.reference.baseOffset 0).mapError fun _ => .indexObjectMismatch

/-- The first batch of a partition from an offset on, through a manifest that is named to it. -/
def readThrough (self : Cluster) (topic : TopicId) (partition start upto : Nat) (key : ObjectKey) :
    Except Error (List UInt8) :=
  match self.manifestBatches start upto maxManifestHops key 0 {} with
  | (⟨.ok batches, _⟩, objects) => self.readOne topic partition batches objects
  | (⟨.error error, _⟩, _) => .error error

theorem get_store {objects : FetchedObjects} (honest : objects.Honest self)
    (few : objects.failed < maxFailedFetchesPerRequest) (key : ObjectKey) (range : ByteRange) :
    (objects.get self key range).1.1 = self.store key range := by
  unfold FetchedObjects.get
  cases held : objects.seen.lookup (key, range) with
  | some answer => exact honest key range answer held
  | none =>
    dsimp only
    rw [if_neg (not_le.mpr few)]

theorem oneBatch_content {objects : FetchedObjects} (honest : objects.Honest self)
    (few : objects.failed < maxFailedFetchesPerRequest) (batch : IndexedBatch) :
    (self.oneBatch topic partition objects batch).1.blob =
      self.content topic partition batch := by
  cases batch with
  | inline entry =>
    have fetched := get_store honest few entry.reference.object entry.bytes
    unfold oneBatch content
    dsimp only
    split <;> rename_i hget <;> rw [hget] at fetched <;> exact fetched
  | footer object =>
    have fetched := get_store honest few object.object .full
    unfold oneBatch content
    dsimp only
    split <;> rename_i hget <;> rw [hget] at fetched
    · rw [← fetched]
      rfl
    · rw [← fetched, bind_ok]
      split <;> rename_i hslice <;> exact hslice.symm

/-- With nothing to spend, one batch is served and the rest is left. -/
theorem readPage_cons {objects : FetchedObjects} (honest : objects.Honest self)
    (few : objects.failed < maxFailedFetchesPerRequest) (batch : IndexedBatch)
    (rest : List IndexedBatch) (fetched : Nat) :
    answerOf (self.readPage topic partition ⟨0, true⟩ (batch :: rest) [] fetched objects).1 =
      self.stampedContent topic partition batch := by
  have blob := @oneBatch_content self topic partition objects honest few batch
  unfold stampedContent readPage
  rw [if_neg (by simp [recordsOf]), ← blob]
  dsimp only
  cases (self.oneBatch topic partition objects batch).1.blob with
  | error error =>
    dsimp only
    rw [if_pos (by simp [recordsOf])]
    rfl
  | ok bytes =>
    rw [bind_ok]
    dsimp only
    cases stamps : rewriteBaseOffset bytes batch.reference.baseOffset 0 with
    | error refused => rfl
    | ok stamped =>
      have some := rewriteBaseOffset_ne_nil stamps
      dsimp only [Except.mapError]
      cases rest with
      | nil => simp [readPage, answerOf, Read.records, recordsOf]
      | cons next rest =>
        unfold readPage
        rw [if_pos (by simp [recordsOf, some])]
        simp [answerOf, Read.records, recordsOf]

theorem readOne_cons {objects : FetchedObjects} (honest : objects.Honest self)
    (few : objects.failed < maxFailedFetchesPerRequest) (batch : IndexedBatch)
    (rest : List IndexedBatch) :
    self.readOne topic partition (batch :: rest) objects =
      self.stampedContent topic partition batch := readPage_cons honest few batch rest 0

end Cluster

/-- The same bytes, or two refusals. -/
def Same (one other : Except Error (List UInt8)) : Prop :=
  one = other ∨ (∃ error, one = .error error) ∧ ∃ error, other = .error error

structure Spans (cluster : Cluster) (whole : List UInt8) (regions : List Region)
    (region : Region) (reference : ObjectRef) (key : ObjectKey) (upto : Nat) : Prop where
  small : whole.length ≤ u64Max
  parsed : parseFooter whole whole.length = .ok regions
  among : region ∈ regions
  keeps : Keeps cluster.store reference.object whole
  named : ∃ bytes manifest position, cluster.store key .full = .ok bytes ∧
    parsePartitionManifest bytes = .ok manifest ∧
    manifest.position reference.baseOffset = some position ∧
    manifest.entries[position]? =
      some ⟨reference.object, reference.baseOffset, reference.recordCount, region.bytes⟩
  below : reference.baseOffset < upto

namespace Spans

variable {cluster : Cluster} {whole : List UInt8} {regions : List Region} {region : Region}
  {reference : ObjectRef} {key : ObjectKey} {upto : Nat}

theorem range_read (spans : Spans cluster whole regions region reference key upto) :
    cluster.store reference.object region.bytes = .ok (region.slice whole) := by
  obtain ⟨offset, length, held, inside, slice⟩ :=
    bytes_of_parsed spans.small spans.parsed spans.among
  rw [held, slice]
  exact spans.keeps.bounded offset length inside

/-- The manifest names the span first, out of one object that is there. -/
theorem manifestBatches_eq (spans : Spans cluster whole regions region reference key upto) :
    ∃ rest cost objects, cluster.manifestBatches reference.baseOffset upto maxManifestHops key 0 {} =
      (⟨.ok (.inline ⟨reference, region.bytes⟩ :: rest), cost⟩, objects) ∧
      objects.Honest cluster ∧ objects.failed < maxFailedFetchesPerRequest := by
  obtain ⟨bytes, manifest, position, stored, parsed, found, entry⟩ := spans.named
  obtain ⟨inside, here⟩ := List.getElem?_eq_some_iff.mp entry
  have cut : entriesBelow manifest position upto = ⟨reference.object, reference.baseOffset,
      reference.recordCount, region.bytes⟩ :: (manifest.entries.drop (position + 1)).takeWhile
        fun entry => decide (entry.baseOffset < upto) := by
    unfold entriesBelow
    rw [List.drop_eq_getElem_cons inside, here, List.takeWhile_cons_of_pos]
    exact decide_eq_true spans.below
  obtain ⟨rest, page⟩ : ∃ rest, ((entriesBelow manifest position upto).take
      maxBatchesPerPage).map inlineBatch = .inline ⟨reference, region.bytes⟩ :: rest :=
    ⟨_, by rw [cut]; rfl⟩
  have honest : ({} : FetchedObjects).Honest cluster := fun _ _ _ seen => by cases seen
  have fetched := honest.get key .full
  have got : (({} : FetchedObjects).get cluster key .full) =
      ((.ok bytes, true), { seen := Finmap.insert (key, .full) (.ok bytes) ∅, failed := 0 }) := by
    unfold FetchedObjects.get
    rw [show ({} : FetchedObjects).seen.lookup (key, .full) = none from rfl]
    dsimp only
    rw [if_neg (by decide), stored]
  rw [got] at fetched
  refine ⟨rest, 0 + costOf true bytes, _, ?_, fetched.1, Nat.zero_lt_two⟩
  unfold maxManifestHops Cluster.manifestBatches
  rw [got]
  dsimp only
  rw [parsed]
  dsimp only
  rw [found]
  dsimp only
  rw [page]

theorem readThrough_eq (spans : Spans cluster whole regions region reference key upto)
    (topic : TopicId) (partition : Nat) :
    cluster.readThrough topic partition reference.baseOffset upto key =
      cluster.stampedContent topic partition (.inline ⟨reference, region.bytes⟩) := by
  obtain ⟨rest, cost, objects, answered, honest, few⟩ := spans.manifestBatches_eq
  unfold Cluster.readThrough
  rw [answered]
  exact Cluster.readOne_cons honest few _ rest

theorem stampedContent_tail (spans : Spans cluster whole regions region reference key upto)
    (topic : TopicId) (partition : Nat) :
    cluster.stampedContent topic partition (.inline ⟨reference, region.bytes⟩) =
      (rewriteBaseOffset (region.slice whole) reference.baseOffset 0).mapError
        fun _ => .indexObjectMismatch := by
  have read : cluster.content topic partition (.inline ⟨reference, region.bytes⟩) =
      .ok (region.slice whole) := spans.range_read
  unfold Cluster.stampedContent
  rw [read, bind_ok]
  rfl

theorem stampedContent_history (spans : Spans cluster whole regions region reference key upto)
    (topic : TopicId) (partition : Nat) :
    cluster.stampedContent topic partition (.footer reference) =
      cluster.sliceRegion topic partition whole >>= fun blob =>
        (rewriteBaseOffset blob reference.baseOffset 0).mapError fun _ => .indexObjectMismatch := by
  have read : cluster.content topic partition (.footer reference) =
      cluster.sliceRegion topic partition whole := by
    change cluster.store reference.object .full >>= cluster.sliceRegion topic partition = _
    rw [spans.keeps.full, bind_ok]
  unfold Cluster.stampedContent
  rw [read]
  rfl

end Spans

theorem rewriteBaseOffset_eq_ok {batch : List UInt8} {baseOffset epoch : Int} :
    (∃ stamped, rewriteBaseOffset batch baseOffset epoch = .ok stamped) ↔
      ∃ header, decodeBatchHeader batch = .ok header := by
  unfold rewriteBaseOffset
  cases decodeBatchHeader batch with
  | error refused => exact iff_of_false (fun ⟨_, h⟩ => by cases h) (fun ⟨_, h⟩ => by cases h)
  | ok header => exact iff_of_true ⟨_, rfl⟩ ⟨header, rfl⟩

/-- The tiers answer a span alike, and none serves one that is not its domain's, exactly when
no tier can stamp it, or its domain lets the partition have its region and no other of the
object is the partition's. -/
theorem tiers_agree_iff {index : IndexState} {topicKeyDomain : TopicId → Option KeyDomain}
    {store : ObjectKey → ByteRange → Except Error (List UInt8)} {whole : List UInt8}
    {regions : List Region} {region : Region} {reference : ObjectRef} {key : ObjectKey}
    {upto : Nat} {domain : KeyDomain}
    (spans : Spans ⟨index, store, domainRegion topicKeyDomain⟩ whole regions region reference key
      upto) (domainOf : topicKeyDomain region.topic = some domain) :
    let cluster : Cluster := ⟨index, store, domainRegion topicKeyDomain⟩
    let tail := cluster.readOne region.topic region.partition
      [.inline ⟨reference, region.bytes⟩] {}
    let history := cluster.readOne region.topic region.partition [.footer reference] {}
    let manifest := cluster.readThrough region.topic region.partition reference.baseOffset upto key
    (Same tail history ∧ Same tail manifest ∧ Same history manifest ∧
      (domain.validateRegion region ≠ .ok () →
        ∀ records, tail ≠ .ok records ∧ history ≠ .ok records ∧ manifest ≠ .ok records)) ↔
    (∀ header, decodeBatchHeader (region.slice whole) ≠ .ok header) ∨
      domain.validateRegion region = .ok () ∧
        regions.filter (fun other => decide (other.key = region.key)) = [region] := by
  have honest : ({} : FetchedObjects).Honest ⟨index, store, domainRegion topicKeyDomain⟩ :=
    fun _ _ _ seen => by cases seen
  dsimp only
  rw [Cluster.readOne_cons honest (by decide), Cluster.readOne_cons honest (by decide),
    spans.readThrough_eq, spans.stampedContent_tail, spans.stampedContent_history]
  dsimp only
  have among : region ∈ regions.filter fun other => decide (other.key = region.key) :=
    List.mem_filter.mpr ⟨spans.among, decide_eq_true rfl⟩
  have cuts : ∀ blob, domainRegion topicKeyDomain region.topic region.partition whole = .ok blob ↔
      regions.filter (fun other => decide (other.key = region.key)) = [region] ∧
        domain.validateRegion region = .ok () ∧ blob = region.slice whole := by
    intro blob
    unfold domainRegion
    rw [domainOf]
    dsimp only
    rw [sliceRegion_eq_ok spans.small spans.parsed]
    constructor
    · rintro ⟨other, only, valid, same⟩
      change regions.filter (fun other => decide (other.key = region.key)) = [other] at only
      rw [only, List.mem_singleton] at among
      subst among
      exact ⟨only, valid, same⟩
    · rintro ⟨only, valid, same⟩
      exact ⟨region, only, valid, same⟩
  constructor
  · rintro ⟨same, -, -, -⟩
    rw [or_iff_not_imp_left, not_forall]
    rintro ⟨header, decodes⟩
    obtain ⟨stamped, stamps⟩ :=
      rewriteBaseOffset_eq_ok.mpr (⟨header, not_not.mp decodes⟩ : ∃ header, _ = Except.ok header)
    rw [stamps] at same
    rcases same with same | ⟨⟨error, refused_⟩, -⟩
    · obtain ⟨blob, cut, -⟩ := bind_eq_ok.mp same.symm
      obtain ⟨only, valid, -⟩ := (cuts blob).mp cut
      exact ⟨valid, only⟩
    · cases refused_
  · rintro (unstampable | ⟨valid, only⟩)
    · have refused_ : ∃ error, rewriteBaseOffset (region.slice whole) reference.baseOffset 0 =
          .error error := by
        cases stamps : rewriteBaseOffset (region.slice whole) reference.baseOffset 0 with
        | error error => exact ⟨error, rfl⟩
        | ok stamped =>
          obtain ⟨header, decodes⟩ := rewriteBaseOffset_eq_ok.mp ⟨stamped, stamps⟩
          exact absurd decodes (unstampable header)
      obtain ⟨error, refused_⟩ := refused_
      rw [refused_]
      have history : ∃ error, (domainRegion topicKeyDomain region.topic region.partition whole >>=
          fun blob => (rewriteBaseOffset blob reference.baseOffset 0).mapError fun _ =>
            Error.indexObjectMismatch) = .error error := by
        cases cut : domainRegion topicKeyDomain region.topic region.partition whole with
        | error error => exact ⟨error, rfl⟩
        | ok blob =>
          obtain ⟨-, -, rfl⟩ := (cuts blob).mp cut
          rw [bind_ok, refused_]
          exact ⟨_, rfl⟩
      obtain ⟨other, history⟩ := history
      rw [history]
      exact ⟨.inr ⟨⟨_, rfl⟩, _, rfl⟩, .inl rfl, .inr ⟨⟨_, rfl⟩, _, rfl⟩,
        fun _ records => ⟨(fun h => by cases h), (fun h => by cases h), (fun h => by cases h)⟩⟩
    · rw [(cuts (region.slice whole)).mpr ⟨only, valid, rfl⟩, bind_ok]
      exact ⟨.inl rfl, .inl rfl, .inl rfl, fun invalid => absurd valid invalid⟩

def plainRegion : Region := ⟨⟨"t"⟩, 0, .bounded 0 61, 1, .none, none⟩

def plainBundle : List UInt8 := bareHeader ++ image [plainRegion]

def spanManifest : PartitionManifest := ⟨[⟨⟨"o"⟩, 0, 1, .bounded 0 61⟩], none⟩

/-- A store of that object, whatever it is called, and of the manifest that names it. -/
def tierStore (key : ObjectKey) (range : ByteRange) : Except Error (List UInt8) :=
  if key = ⟨"m"⟩ then spanManifest.seal
  else match range with
    | .full => .ok plainBundle
    | .bounded offset length => .ok ((plainBundle.drop offset).take length)

theorem spans_plain (index : IndexState) (topicKeyDomain : TopicId → Option KeyDomain) :
    Spans ⟨index, tierStore, domainRegion topicKeyDomain⟩ plainBundle [plainRegion] plainRegion
      ⟨⟨"o"⟩, 0, 1⟩ ⟨"m"⟩ 1 where
  small := by decide +kernel
  parsed := by decide +kernel
  among := List.mem_singleton_self _
  keeps := ⟨rfl, fun _ _ _ => rfl⟩
  named := by
    have sealed_ : (spanManifest.seal >>= parsePartitionManifest) = .ok spanManifest := by
      decide +kernel
    obtain ⟨bytes, hbytes, parsed⟩ := bind_eq_ok.mp sealed_
    exact ⟨bytes, spanManifest, 0, hbytes, parsed, by decide, rfl⟩
  below := Nat.zero_lt_one

/-- In the default domain the plain region is read alike from every tier. -/
theorem tiers_agree_iff_plain :
    let cluster : Cluster := ⟨.new, tierStore, domainRegion fun _ => some .defaultDomain⟩
    Same (cluster.readOne ⟨"t"⟩ 0 [.inline ⟨⟨⟨"o"⟩, 0, 1⟩, .bounded 0 61⟩] {})
      (cluster.readOne ⟨"t"⟩ 0 [.footer ⟨⟨"o"⟩, 0, 1⟩] {}) :=
  ((tiers_agree_iff (spans_plain .new fun _ => some .defaultDomain) rfl).mpr
    (.inr ⟨by decide, by decide⟩)).1

/-- In a customer's domain it is served from the tail and through the manifest, and refused to
a read of its history. -/
theorem tiers_disagree : ∃ keyId,
    let cluster : Cluster := ⟨.new, tierStore, domainRegion fun _ => some (.customer keyId)⟩
    parseFooter plainBundle plainBundle.length = .ok [plainRegion] ∧
    KeyDomain.validateRegion (.customer keyId) plainRegion ≠ .ok () ∧
    (∃ records, cluster.readOne ⟨"t"⟩ 0 [.inline ⟨⟨⟨"o"⟩, 0, 1⟩, .bounded 0 61⟩] {} = .ok records ∧
      cluster.readThrough ⟨"t"⟩ 0 0 1 ⟨"m"⟩ = .ok records) ∧
    ∃ error, cluster.readOne ⟨"t"⟩ 0 [.footer ⟨⟨"o"⟩, 0, 1⟩] {} = .error error := by
  refine ⟨⟨"k", by decide, by decide, by decide⟩, by decide +kernel, by decide,
    ⟨bareHeader, by decide +kernel, by decide +kernel⟩, .regionKeyDomainMismatch true,
    by decide +kernel⟩

end Oqueue.Broker
