import Oqueue.Broker.Seam
import Oqueue.Index.Reachable

/-!
# When a read leaves no hole

A read from inside a partition is gap free for every budget and every request
exactly when the manifest link that holds its start reaches the resident index
within a page, or when nothing past the seam can be served.
-/

namespace Oqueue.Broker

open Codec Checked Tiling

namespace Cluster

theorem oneBatch_seen {self : Cluster} {topic : TopicId} {partition : Nat}
    {objects : FetchedObjects} {batch : IndexedBatch} {blob : List UInt8}
    (seen : objects.seen.lookup (source batch) =
      some (self.store (source batch).1 (source batch).2))
    (there : self.content topic partition batch = .ok blob) :
    self.oneBatch topic partition objects batch = (⟨.ok blob, 0, false⟩, objects) := by
  cases batch with
  | inline entry =>
    have stored : self.store entry.reference.object entry.bytes = .ok blob := there
    unfold oneBatch
    simp only [source, stored] at seen
    simp only [FetchedObjects.get_seen seen]
    rfl
  | footer object =>
    obtain ⟨whole, stored, sliced⟩ := bind_eq_ok.mp there
    unfold oneBatch
    simp only [source, stored] at seen
    simp only [FetchedObjects.get_seen seen, sliced]
    rfl

/-- Readable batches that are remembered are all served, as long as the records
before the last of them leave some of the allowance. -/
theorem readPage_seen {self : Cluster} {topic : TopicId} {partition : Nat}
    {objects : FetchedObjects} {page : List IndexedBatch}
    (readable : ∀ b ∈ page, self.Readable topic partition b)
    (seen : ∀ b ∈ page, objects.seen.lookup (source b) =
      some (self.store (source b).1 (source b).2)) :
    ∃ blobs : List (IndexedBatch × List UInt8), blobs.map Prod.fst = page ∧
      (∀ x ∈ blobs, x.2 ≠ []) ∧
      ∀ allowance rest served,
        (blobs ≠ [] → (recordsOf (served ++ blobs.dropLast)).length < allowance.bytes) →
        self.readPage topic partition allowance (page ++ rest) served 0 objects =
          self.readPage topic partition allowance rest (served ++ blobs) 0 objects := by
  induction page with
  | nil => exact ⟨[], rfl, by simp, fun allowance rest served _ => by simp⟩
  | cons batch page ih =>
    obtain ⟨blob, stamped, there, hstamped⟩ := readable batch (List.mem_cons_self ..)
    have fetched := oneBatch_seen (seen batch (List.mem_cons_self ..)) there
    obtain ⟨blobs, hfirst, nonempty, onward⟩ :=
      ih (fun b hb => readable b (List.mem_cons_of_mem _ hb))
        (fun b hb => seen b (List.mem_cons_of_mem _ hb))
    refine ⟨(batch, stamped) :: blobs, by simp [hfirst], ?_, ?_⟩
    · intro x hx
      rcases List.mem_cons.mp hx with rfl | hx
      · exact rewriteBaseOffset_ne_nil hstamped
      · exact nonempty x hx
    · intro allowance rest served room
      have left := room (by simp)
      have spent : (recordsOf served).length ≤
          (recordsOf (served ++ ((batch, stamped) :: blobs).dropLast)).length := by
        unfold recordsOf
        rw [List.flatMap_append, List.length_append]
        omega
      rw [List.cons_append, readPage, if_neg (by omega)]
      simp only [fetched, hstamped]
      rw [Nat.add_zero, onward allowance rest (served ++ [(batch, stamped)]) ?_]
      · rw [List.append_assoc]
        rfl
      · intro more
        rwa [List.append_assoc, List.singleton_append, ← List.dropLast_cons_of_ne_nil more]

end Cluster

/-- A request that has already pulled these objects. -/
def remembering (cluster : Cluster) (ids : List (ObjectKey × ByteRange)) : FetchedObjects :=
  { seen := ids.foldr (fun id seen => seen.insert id (cluster.store id.1 id.2)) ∅ }

theorem lookup_remembering (cluster : Cluster) (ids : List (ObjectKey × ByteRange))
    (id : ObjectKey × ByteRange) :
    (remembering cluster ids).seen.lookup id =
      if id ∈ ids then some (cluster.store id.1 id.2) else none := by
  unfold remembering
  induction ids with
  | nil => rfl
  | cons head rest ih =>
    dsimp only [List.foldr_cons] at ih ⊢
    rw [Table.lookup_insert_eq, ih]
    by_cases same : id = head
    · simp [same]
    · simp [same]

theorem honest_remembering (cluster : Cluster) (ids : List (ObjectKey × ByteRange)) :
    (remembering cluster ids).Honest cluster := by
  intro key range answer h
  rw [lookup_remembering] at h
  split at h
  · exact (Option.some.inj h).symm
  · cases h

/-- The start is not below a manifest's end; or the link that holds it reaches
that end within a page; or nothing past the seam can be served, because an object
up to and with the first resident one is not there or cannot be stamped. A link
past the hop limit makes the read fail instead. -/
def Seamless (cluster : Cluster) (topic : TopicId) (partition start : Nat) (p : PartitionIndex)
    (links : List (ObjectKey × PartitionManifest)) : Prop :=
  ∀ key upto, p.manifest = some (key, upto) → start < upto →
    ∀ depth manifest position first, depth < maxManifestHops →
      (links[depth]?).map Prod.snd = some manifest → manifest.position start = some position →
      p.resident.head? = some first →
      Reaches manifest position upto ∨
        ∃ b ∈ pageOf manifest position upto ++ [first], ¬ cluster.Readable topic partition b

namespace Cluster

theorem read_ok {self : Cluster} {topic : TopicId} {partition start : Nat} {allowance : Allowance}
    {objects : FetchedObjects} {out : Read}
    (h : (self.read topic partition start allowance objects).1 = .ok out) :
    ∃ fromManifest fromIndex, (self.manifestPage topic partition start allowance objects).1.batches =
        .ok fromManifest ∧
      self.index.findBatches (topic, partition) start allowance.bytes = .ok fromIndex ∧
      (self.readPage topic partition allowance (fromManifest ++ fromIndex) []
        (self.manifestPage topic partition start allowance objects).1.cost
        (self.manifestPage topic partition start allowance objects).2).1 = .ok out := by
  unfold read at h
  dsimp only at h
  split at h
  · cases h
  · rename_i fromManifest hmanifest
    split at h
    · cases h
    · rename_i fromIndex hindex
      exact ⟨fromManifest, fromIndex, hmanifest, hindex, h⟩

end Cluster

theorem resident_gapFree {p : PartitionIndex} {start low high : Nat}
    (tiles : BatchTiles p.resident low high) (begins : low ≤ start)
    {taken rest : List IndexedBatch}
    (split : p.resident.filter (fun b => decide (start < b.reference.stop)) = taken ++ rest) :
    GapFree start taken := by
  obtain ⟨dropped, hsplit, hdropped⟩ := tiles.filter_above start
  obtain ⟨middle, hlow, hhigh⟩ := Tiles.append_iff.mp (hsplit ▸ tiles)
  refine GapFree.of_tiles hhigh split (hlow.end_le begins hdropped) ?_
  intro b hb
  have := (List.mem_filter.mp (List.mem_of_mem_head? hb)).2
  simpa using this

theorem resident_filter {p : PartitionIndex} {start upto high : Nat}
    (tiles : BatchTiles p.resident upto high) (below : start < upto) :
    p.resident.filter (fun b => decide (start < b.reference.stop)) = p.resident := by
  rw [List.filter_eq_self]
  intro b hb
  have : upto ≤ b.reference.baseOffset ∧ b.reference.baseOffset < b.reference.stop ∧ _ :=
    tiles.bounds hb
  simp only [decide_eq_true_eq]
  omega

namespace Cluster

variable {self : Cluster} {topic : TopicId} {partition start : Nat} {p : PartitionIndex}
  {links : List (ObjectKey × PartitionManifest)}

theorem findBatches_spec (held : self.index.partition (topic, partition) = some p) (wf : p.WF)
    (started : p.logStart ≤ start) (maxBytes : Nat) :
    ∃ batches rest, self.index.findBatches (topic, partition) start maxBytes = .ok batches ∧
      p.resident.filter (fun b => decide (start < b.reference.stop)) = batches ++ rest ∧
      (p.resident.filter (fun b => decide (start < b.reference.stop)) ≠ [] → batches ≠ []) := by
  rw [IndexState.findBatches_of_held held]
  exact wf.findBatches_spec started maxBytes

theorem manifest_eq (held : self.index.partition (topic, partition) = some p) :
    self.index.manifest (topic, partition) = p.manifest := by
  unfold IndexState.manifest
  rw [held]
  rfl

theorem read_resident (held : self.index.partition (topic, partition) = some p) (wf : p.WF)
    (started : p.logStart ≤ start) {low : Nat} (begins : low ≤ start)
    (tiles : RefTiles p.refs low p.endOffset) {allowance : Allowance} {objects : FetchedObjects}
    (honest : objects.Honest self) {fetched : Nat} {fromIndex : List IndexedBatch}
    (named : self.index.findBatches (topic, partition) start allowance.bytes = .ok fromIndex)
    {out : Read}
    (h : (self.readPage topic partition allowance fromIndex [] fetched objects).1 = .ok out) :
    GapFree start (out.served.map Prod.fst) := by
  obtain ⟨batches, rest, hbatches, hsplit, -⟩ := findBatches_spec held wf started allowance.bytes
  cases hbatches.symm.trans named
  obtain ⟨taken, left, rfl, hserved, -⟩ := readPage_ok honest h
  rw [hserved]
  rw [List.append_assoc] at hsplit
  exact resident_gapFree (PartitionIndex.tiles_resident.mp tiles) begins hsplit

theorem readPage_broke {allowance : Allowance} (broke : allowance.bytes = 0)
    (strict : allowance.mayOvershoot = false) {page : List IndexedBatch} {fetched : Nat}
    {objects : FetchedObjects} {out : Read}
    (h : (self.readPage topic partition allowance page [] fetched objects).1 = .ok out) :
    out.served = [] := by
  cases page with
  | nil =>
    cases h
    rfl
  | cons batch page =>
    unfold readPage at h
    rw [if_pos ⟨by omega, by simp [strict]⟩] at h
    cases h
    rfl

/-- Across the seam: what is served of the page and of the index has no hole
when the page reaches the index, or else nothing of the index is served. -/
theorem seam_gapFree (wf : p.WF) {key : ObjectKey} {upto : Nat}
    (hmanifest : p.manifest = some (key, upto)) (below : start < upto)
    {manifest : PartitionManifest} {position low high : Nat}
    (entries : EntryTiles manifest.entries low high)
    (found : manifest.position start = some position)
    (seam : ∀ first, p.resident.head? = some first → Reaches manifest position upto ∨
      ∃ b ∈ pageOf manifest position upto ++ [first], ¬ self.Readable topic partition b)
    {taken left fromIndex rest : List IndexedBatch}
    (split : pageOf manifest position upto ++ fromIndex = taken ++ left)
    (named : p.resident = fromIndex ++ rest)
    (readable : ∀ b ∈ taken, self.Readable topic partition b) : GapFree start taken := by
  obtain ⟨first, more, low, stop, hpage, begins, past, tiles, ends⟩ :=
    pageOf_spec entries found below
  have holds : ∀ b, (pageOf manifest position upto).head? = some b → start < b.reference.stop := by
    intro b hb
    rw [hpage] at hb
    cases hb
    exact past
  rcases List.append_eq_append_iff.mp split with ⟨served, htaken, hserved⟩ | ⟨unserved, hunserved, -⟩
  · cases served with
    | nil =>
      rw [List.append_nil] at htaken
      exact GapFree.of_tiles tiles (by rw [htaken, List.append_nil]) begins holds
    | cons next served =>
      have first : p.resident.head? = some next := by
        rw [named, hserved]
        rfl
      have all : ∀ b ∈ pageOf manifest position upto ++ [next],
          self.Readable topic partition b := by
        intro b hb
        refine readable b ?_
        rw [htaken]
        rcases List.mem_append.mp hb with hb | hb
        · exact List.mem_append_left _ hb
        · rw [List.mem_singleton.mp hb]
          simp
      rcases seam next first with reaches | ⟨b, hb, unreadable⟩
      · have meets := PartitionIndex.tiles_resident.mp (wf.manifest_meets _ hmanifest)
        rw [ends.mpr reaches] at tiles
        have whole := tiles.append meets
        refine @GapFree.of_tiles _ _ _ _ _ (left ++ rest) whole ?_ begins ?_
        · rw [htaken, named, hserved]
          simp
        · intro b hb
          refine holds b ?_
          rw [hpage] at hb ⊢
          exact hb
      · exact absurd (all b hb) unreadable
  · exact GapFree.of_tiles tiles hunserved begins holds

theorem exists_holder (wf : p.WF) {key : ObjectKey} {upto : Nat}
    (hmanifest : p.manifest = some (key, upto)) (published : Published self key p.logStart upto links)
    (started : p.logStart ≤ start) (below : start < upto) :
    ∃ depth manifest position, Holds links start depth manifest position ∧
      ∃ low high, EntryTiles manifest.entries low high := by
  have fits := (wf.manifest_meets _ hmanifest).le.trans wf.fits
  obtain ⟨low, lowLe, tiles⟩ := published.covers
  obtain ⟨depth, manifest, position, holds⟩ := exists_holds published.linked
    (lowLe.trans started) below (Nat.le_refl _) fits tiles
  refine ⟨depth, manifest, position, holds, ?_⟩
  obtain ⟨link, hlink, rfl⟩ := Option.map_eq_some_iff.mp holds.link
  obtain ⟨bytes, -, parsed⟩ := published.linked.stored link (List.mem_of_getElem? hlink)
  exact (parsePartitionManifest_tiles parsed).2

theorem gapFree_of_seamless (held : self.index.partition (topic, partition) = some p) (wf : p.WF)
    (started : p.logStart ≤ start)
    (published : ∀ key upto, p.manifest = some (key, upto) →
      Published self key p.logStart upto links)
    (seamless : Seamless self topic partition start p links) {allowance : Allowance}
    {objects : FetchedObjects} (honest : objects.Honest self) {out : Read}
    (h : (self.read topic partition start allowance objects).1 = .ok out) :
    GapFree start (out.served.map Prod.fst) := by
  obtain ⟨fromManifest, fromIndex, hpage, hindex, hread⟩ := read_ok h
  unfold manifestPage at hpage hread
  rw [manifest_eq held] at hpage hread
  cases hmanifest : p.manifest with
  | none =>
    rw [hmanifest] at hpage hread
    cases hpage
    obtain ⟨low, lowLe, tiles⟩ := wf.reaches hmanifest
    exact read_resident held wf started (lowLe.trans started) tiles honest hindex hread
  | some covering =>
    obtain ⟨key, upto⟩ := covering
    rw [hmanifest] at hpage hread
    dsimp only at hpage hread
    split at hpage
    · rename_i used
      rw [if_pos used] at hread
      obtain ⟨below, -⟩ := used
      obtain ⟨depth, manifest, position, holds, low, high, entries⟩ :=
        exists_holder wf hmanifest (published key upto hmanifest) started below
      obtain ⟨honest', answered⟩ := @manifestBatches_ok self links
        (published key upto hmanifest).linked start upto depth position manifest holds
        maxManifestHops 0 key objects (published key upto hmanifest).newest honest
      obtain ⟨within, rfl⟩ := answered _ hpage
      obtain ⟨taken, left, hsplit, hserved, readable⟩ := readPage_ok honest' hread
      obtain ⟨batches, rest, hbatches, named, -⟩ :=
        findBatches_spec held wf started allowance.bytes
      cases hbatches.symm.trans hindex
      rw [resident_filter (PartitionIndex.tiles_resident.mp (wf.manifest_meets _ hmanifest)) below] at named
      rw [hserved]
      exact seam_gapFree wf hmanifest below entries holds.found
        (fun first hfirst => seamless key upto hmanifest below depth manifest position first within
          holds.link holds.found hfirst) hsplit named readable
    · rename_i unused
      rw [if_neg unused] at hread
      cases hpage
      by_cases below : start < upto
      · have broke : allowance.bytes = 0 ∧ allowance.mayOvershoot = false := by
          simpa [below] using unused
        rw [readPage_broke broke.1 broke.2 hread]
        exact GapFree.nil start
      · exact read_resident held wf started (Nat.le_of_not_lt below)
          (wf.manifest_meets _ hmanifest) honest hindex hread

/-- When the link falls short and everything up to the first resident batch is
readable, some read serves that batch across a hole. -/
theorem exists_gap (held : self.index.partition (topic, partition) = some p) (wf : p.WF)
    (started : p.logStart ≤ start) {key : ObjectKey} {upto : Nat}
    (hmanifest : p.manifest = some (key, upto)) (below : start < upto)
    (published : Published self key p.logStart upto links) {depth position : Nat}
    {manifest : PartitionManifest} {first : IndexedBatch}
    (holds : Holds links start depth manifest position) {low high : Nat}
    (entries : EntryTiles manifest.entries low high) (within : depth < maxManifestHops)
    (hfirst : p.resident.head? = some first) (short : ¬ Reaches manifest position upto)
    (readable : ∀ b ∈ pageOf manifest position upto ++ [first], self.Readable topic partition b) :
    ∃ allowance objects out, objects.Honest self ∧
      (self.read topic partition start allowance objects).1 = .ok out ∧
      ¬ GapFree start (out.served.map Prod.fst) := by
  have meets := PartitionIndex.tiles_resident.mp (wf.manifest_meets _ hmanifest)
  let ids := links.map (fun link => (link.1, ByteRange.full)) ++
    (pageOf manifest position upto ++ [first]).map source
  have remembered : ∀ id ∈ ids, (remembering self ids).seen.lookup id =
      some (self.store id.1 id.2) := by
    intro id hid
    rw [lookup_remembering, if_pos hid]
  obtain ⟨blobs, hblobs, nonempty, serves⟩ := readPage_seen readable fun b hb =>
    remembered _ (List.mem_append_right _ (List.mem_map_of_mem hb))
  have some : blobs ≠ [] := by
    rintro rfl
    simp at hblobs
  -- Enough for everything before the first resident batch, and spent once it is served.
  let allowance : Allowance := ⟨(recordsOf blobs.dropLast).length + 1, false⟩
  obtain ⟨batches, rest, hbatches, named, hne⟩ := findBatches_spec held wf started allowance.bytes
  rw [resident_filter meets below] at named hne
  obtain ⟨others, rfl⟩ : ∃ others, batches = first :: others := by
    have present : p.resident ≠ [] := by
      intro empty
      rw [empty] at hfirst
      cases hfirst
    obtain ⟨head, others, hcons⟩ := List.exists_cons_of_ne_nil (hne present)
    rw [named, hcons] at hfirst
    cases hfirst
    exact ⟨others, hcons⟩
  refine ⟨allowance, remembering self ids, ⟨blobs, 0⟩, honest_remembering self ids, ?_, ?_⟩
  · have page := @manifestBatches_seen self links published.linked start upto depth position manifest
      holds maxManifestHops 0 key (remembering self ids) published.newest
      (fun link hlink => remembered _ (List.mem_append_left _ (List.mem_map_of_mem hlink))) within
    unfold read manifestPage
    rw [manifest_eq held, hmanifest]
    dsimp only
    rw [if_pos ⟨below, .inl (Nat.succ_ne_zero _)⟩, page]
    dsimp only
    rw [hbatches]
    dsimp only
    rw [List.append_cons, serves allowance others [] fun _ => Nat.lt_succ_self _, List.nil_append]
    have spent : allowance.bytes ≤ (recordsOf blobs).length := by
      have last := List.length_pos_of_ne_nil (nonempty _ (List.getLast_mem some))
      have whole := congrArg (fun served => (recordsOf served).length)
        (List.dropLast_append_getLast some)
      simp only [recordsOf, List.flatMap_append, List.length_append, List.flatMap_cons,
        List.flatMap_nil, List.append_nil] at whole
      simp only [allowance, recordsOf]
      omega
    cases others with
    | nil => rfl
    | cons next others =>
      have exhausted : allowance.bytes ≤ max 0 (recordsOf blobs).length ∧
          ¬ ((recordsOf blobs).isEmpty = true ∧ allowance.mayOvershoot = true) :=
        ⟨by omega, by simp [allowance]⟩
      unfold readPage
      rw [if_pos exhausted]
  · rw [hblobs]
    obtain ⟨head, more, low, stop, hpage, -, -, tiles, ends⟩ := pageOf_spec entries holds.found below
    rintro ⟨-, contiguous⟩
    obtain ⟨last, hlast⟩ : ∃ last, (pageOf manifest position upto).getLast? = Option.some last :=
      Option.isSome_iff_exists.mp (List.getLast?_isSome.mpr (by simp [hpage]))
    obtain ⟨front, hfront⟩ := List.getLast?_eq_some_iff.mp hlast
    rw [hfront, List.append_assoc] at contiguous
    have adjacent : first.reference.baseOffset = last.reference.stop :=
      (List.isChain_cons_cons.mp (List.isChain_append.mp contiguous).2.1).1
    have stops : last.reference.stop = stop := tiles.getLast_hi hlast
    have starts : first.reference.baseOffset = upto := meets.head_lo hfirst
    exact short (ends.mp (by omega))

/-- Reads of a reachable partition with a consistent chain, over every allowance
and everything a request may already hold. -/
theorem read_gapFree_iff {quota : Option IndexQuota} {pages : List (List MetadataEntry)}
    (folded : pages.foldlM IndexState.apply { quota := quota } = .ok self.index)
    (held : self.index.partition (topic, partition) = some p) (started : p.logStart ≤ start)
    (published : ∀ key upto, p.manifest = some (key, upto) →
      Published self key p.logStart upto links) :
    (∀ allowance objects out, objects.Honest self →
      (self.read topic partition start allowance objects).1 = .ok out →
      out.served ≠ [] → GapFree start (out.served.map Prod.fst)) ↔
    Seamless self topic partition start p links := by
  have wf := (IndexState.Sound.fold (IndexState.Sound.empty quota) folded).wf _ _ held
  constructor
  · intro gapFree key upto hmanifest below depth manifest position first within hlink found hfirst
    by_contra short
    rw [not_or, not_exists] at short
    obtain ⟨depth', manifest', position', holds, low, high, entries⟩ :=
      exists_holder wf hmanifest (published key upto hmanifest) started below
    obtain ⟨link, hget, rfl⟩ := Option.map_eq_some_iff.mp hlink
    obtain rfl := holds.unique depth link hget (by simp [found])
    obtain rfl : link.2 = manifest' := by simpa [hget] using holds.link
    obtain rfl : position = position' := Option.some.inj (found.symm.trans holds.found)
    obtain ⟨allowance, objects, out, honest, hread, gap⟩ := exists_gap held wf started hmanifest below
      (published key upto hmanifest) holds entries within hfirst short.1
      fun b hb => not_not.mp fun unreadable => short.2 b ⟨hb, unreadable⟩
    refine gap (gapFree allowance objects out honest hread ?_)
    intro empty
    apply gap
    rw [empty]
    exact GapFree.nil start
  · intro seamless allowance objects out honest hread _
    exact gapFree_of_seamless held wf started published seamless honest hread

end Cluster

/-- A hundred and thirty commits of one record, and a manifest over the first two. -/
def splitLog : List (List MetadataEntry) :=
  [[⟨0, .batchCommitted ⟨"d"⟩ ((List.range 130).map fun i =>
      ⟨⟨"t"⟩, 0, 1, .bounded (100 * i) 100, none⟩) 5⟩,
    ⟨1, .manifestPublished ⟨"t"⟩ 0 ⟨"m"⟩ 2⟩]]

def bareHeader : List UInt8 :=
  encodeBatchHeader
    { baseOffset := 0, batchLength := 49, partitionLeaderEpoch := 0, crc := 0, attributes := 0
      lastOffsetDelta := 0, baseTimestamp := 0, maxTimestamp := 0, producerId := -1
      producerEpoch := -1, baseSequence := -1, recordCount := 1 }

/-- A store with these manifests, and with a batch wherever a range is asked for. -/
def clusterOf (links : List (ObjectKey × PartitionManifest)) (index : IndexState) : Cluster where
  index := index
  store := fun key range => match range with
    | .bounded _ _ => .ok bareHeader
    | .full => match links.find? fun link => link.1 == key with
      | some link => link.2.seal
      | none => .error (.objectNotFound key)
  sliceRegion := fun _ _ whole => .ok whole

/-- The first offset in one link, the second in the one after it. -/
def chainedLinks : List (ObjectKey × PartitionManifest) :=
  [(⟨"m"⟩, ⟨[⟨⟨"d"⟩, 1, 1, .bounded 100 100⟩], some ⟨"k"⟩⟩),
    (⟨"k"⟩, ⟨[⟨⟨"d"⟩, 0, 1, .bounded 0 100⟩], none⟩)]

def wholeLink : List (ObjectKey × PartitionManifest) :=
  [(⟨"m"⟩, ⟨[⟨⟨"d"⟩, 0, 1, .bounded 0 100⟩, ⟨⟨"d2"⟩, 1, 1, .bounded 100 100⟩], none⟩)]

theorem linked_clusterOf {links : List (ObjectKey × PartitionManifest)} {index : IndexState}
    (sealed : ∀ link ∈ links, links.find? (fun l => l.1 == link.1) = some link ∧
      (link.2.seal >>= parsePartitionManifest) = .ok link.2)
    (names : links.IsChain fun newer older => newer.2.previous = some older.1) :
    Linked (clusterOf links index) links where
  stored := by
    intro link hlink
    obtain ⟨found, parses⟩ := sealed link hlink
    obtain ⟨bytes, hbytes, parsed⟩ := bind_eq_ok.mp parses
    refine ⟨bytes, ?_, parsed⟩
    simp only [clusterOf, found, hbytes]
  names := names

theorem exists_splitIndex : ∃ s p, splitLog.foldlM IndexState.apply { quota := none } = .ok s ∧
    s.partition (⟨"t"⟩, 0) = some p ∧ p.logStart = 0 ∧ p.endOffset = 130 ∧
    p.manifest = some (⟨"m"⟩, 2) := by
  have shape : ((splitLog.foldlM IndexState.apply { quota := none }).toOption.bind fun s =>
      (s.partition (⟨"t"⟩, 0)).map fun p => (p.logStart, p.endOffset, p.manifest)) =
        some (0, 130, some (⟨"m"⟩, 2)) := by decide +kernel
  obtain ⟨s, hs, hp⟩ := Option.bind_eq_some_iff.mp shape
  obtain ⟨p, hp, hfields⟩ := Option.map_eq_some_iff.mp hp
  cases hfold : splitLog.foldlM IndexState.apply { quota := none } with
  | error e =>
    rw [hfold] at hs
    cases hs
  | ok s' =>
    rw [hfold] at hs
    cases hs
    simp only [Prod.mk.injEq] at hfields
    exact ⟨s, p, rfl, hp, hfields⟩

namespace Cluster

theorem read_gapFree_iff_wholeLink : ∃ s p, splitLog.foldlM IndexState.apply { quota := none } = .ok s ∧
    s.partition (⟨"t"⟩, 0) = some p ∧ p.manifest = some (⟨"m"⟩, 2) ∧
    ∀ allowance objects out, objects.Honest (clusterOf wholeLink s) →
      ((clusterOf wholeLink s).read ⟨"t"⟩ 0 0 allowance objects).1 = .ok out →
      out.served ≠ [] → GapFree 0 (out.served.map Prod.fst) := by
  obtain ⟨s, p, folded, held, hstart, -, hmanifest⟩ := exists_splitIndex
  refine ⟨s, p, folded, held, hmanifest, ?_⟩
  refine (@read_gapFree_iff (clusterOf wholeLink s) ⟨"t"⟩ 0 0 p wholeLink none splitLog folded held
    (Nat.le_of_eq hstart) ?_).mpr ?_
  · intro key upto hcover
    cases hmanifest.symm.trans hcover
    refine ⟨rfl, linked_clusterOf (by decide +kernel) (by simp [wholeLink]), 0, Nat.zero_le _, ?_⟩
    simp [listedBelow, wholeLink, ManifestEntry.stop]
  · intro key upto hcover below depth manifest position first _ hlink found _
    cases hmanifest.symm.trans hcover
    cases depth with
    | succ depth => simp [wholeLink] at hlink
    | zero =>
      cases hlink
      cases found
      exact .inl ⟨by decide, by decide⟩

/-- From offset zero of a chain of two links, offset one is skipped. -/
theorem read_skips_newer_link : ∃ s p out,
    splitLog.foldlM IndexState.apply { quota := none } = .ok s ∧
    s.partition (⟨"t"⟩, 0) = some p ∧ p.logStart ≤ 0 ∧ 0 < p.endOffset ∧
    p.manifest = some (⟨"m"⟩, 2) ∧
    Published (clusterOf chainedLinks s) ⟨"m"⟩ p.logStart 2 chainedLinks ∧
    ((clusterOf chainedLinks s).read ⟨"t"⟩ 0 0 ⟨250, true⟩ {}).1 = .ok out ∧
    out.served.map (fun b => b.1.reference.baseOffset) = [0, 2, 3] ∧
    ¬ GapFree 0 (out.served.map Prod.fst) := by
  obtain ⟨s, p, folded, held, hstart, hend, hmanifest⟩ := exists_splitIndex
  have shape : ((splitLog.foldlM IndexState.apply { quota := none }).toOption.bind fun s =>
      ((clusterOf chainedLinks s).read ⟨"t"⟩ 0 0 ⟨250, true⟩ {}).1.toOption.map fun out =>
        out.served.map fun b => (b.1.reference.baseOffset, b.1.reference.stop)) =
      some [(0, 1), (2, 3), (3, 4)] := by decide +kernel
  rw [folded] at shape
  obtain ⟨out, hout, served⟩ := Option.map_eq_some_iff.mp shape
  have read : ((clusterOf chainedLinks s).read ⟨"t"⟩ 0 0 ⟨250, true⟩ {}).1 = .ok out := by
    cases h : ((clusterOf chainedLinks s).read ⟨"t"⟩ 0 0 ⟨250, true⟩ {}).1 with
    | error e =>
      rw [h] at hout
      cases hout
    | ok out' =>
      rw [h] at hout
      cases hout
      rfl
  refine ⟨s, p, out, folded, held, Nat.le_of_eq hstart, by omega, hmanifest, ?_, read, ?_, ?_⟩
  · refine ⟨rfl, linked_clusterOf (by decide +kernel) (by simp [chainedLinks]), 0, Nat.zero_le _, ?_⟩
    simp [listedBelow, chainedLinks, ManifestEntry.stop]
  · have bases := congrArg (List.map Prod.fst) served
    rw [List.map_map] at bases
    exact bases
  · rintro ⟨-, contiguous⟩
    rw [List.isChain_map] at contiguous
    have pairs : (out.served.map fun b => (b.1.reference.baseOffset, b.1.reference.stop)).IsChain
        (fun b next => next.1 = b.2) := by
      rw [List.isChain_map]
      exact contiguous
    rw [served] at pairs
    simp at pairs

end Cluster

end Oqueue.Broker
