import Oqueue.Broker.Read

/-!
# The seam between the manifest tier and the index

A read is the manifest link's entries from its start, at most a page of them,
and then what the index names from the manifest's end on. It leaves no hole
exactly when that link, within that page, reaches the end.
-/

namespace Oqueue.Broker

open Codec Checked Tiling

abbrev BatchTiles (batches : List IndexedBatch) (low high : Nat) : Prop :=
  Tiles (ObjectRef.baseOffset ∘ IndexedBatch.reference) (ObjectRef.stop ∘ IndexedBatch.reference)
    batches low high

/-- A run of a partition's log that begins with the batch holding `start`. -/
structure GapFree (start : Nat) (batches : List IndexedBatch) : Prop where
  first : ∀ b, batches.head? = some b →
    b.reference.baseOffset ≤ start ∧ start < b.reference.stop
  contiguous : batches.IsChain fun b next => next.reference.baseOffset = b.reference.stop

theorem GapFree.nil (start : Nat) : GapFree start [] where
  first := by simp
  contiguous := .nil

theorem GapFree.of_tiles {start low high : Nat} {batches taken rest : List IndexedBatch}
    (tiles : BatchTiles batches low high) (split : batches = taken ++ rest) (begins : low ≤ start)
    (holds : ∀ b, batches.head? = some b → start < b.reference.stop) : GapFree start taken := by
  subst split
  obtain ⟨middle, htaken, -⟩ := Tiles.append_iff.mp tiles
  refine ⟨?_, htaken.isChain⟩
  intro b hb
  have base : b.reference.baseOffset = low := htaken.head_lo hb
  refine ⟨by omega, holds b ?_⟩
  rw [List.head?_append, hb]
  rfl

def FetchedObjects.Honest (objects : FetchedObjects) (cluster : Cluster) : Prop :=
  ∀ key range answer, objects.seen.lookup (key, range) = some answer →
    answer = cluster.store key range

theorem FetchedObjects.Honest.get {objects : FetchedObjects} {cluster : Cluster}
    (honest : objects.Honest cluster) (key : ObjectKey) (range : ByteRange) :
    (objects.get cluster key range).2.Honest cluster ∧
      ∀ bytes, (objects.get cluster key range).1.1 = .ok bytes →
        cluster.store key range = .ok bytes := by
  unfold FetchedObjects.get
  cases held : objects.seen.lookup (key, range) with
  | some answer =>
    refine ⟨honest, ?_⟩
    intro bytes h
    rw [← honest key range answer held]
    exact h
  | none =>
    dsimp only
    split
    · exact ⟨honest, fun bytes h => by cases h⟩
    · refine ⟨?_, fun bytes h => h⟩
      intro key' range' answer hanswer
      rw [Table.lookup_insert_eq] at hanswer
      split at hanswer
      · rename_i same
        cases same
        exact (Option.some.inj hanswer).symm
      · exact honest key' range' answer hanswer

theorem FetchedObjects.Honest.noteFailure {objects : FetchedObjects} {cluster : Cluster}
    (honest : objects.Honest cluster) : objects.noteFailure.Honest cluster := honest

theorem FetchedObjects.get_seen {objects : FetchedObjects} {cluster : Cluster} {key : ObjectKey}
    {range : ByteRange} {answer : Except Error (List UInt8)}
    (held : objects.seen.lookup (key, range) = some answer) :
    objects.get cluster key range = ((answer, false), objects) := by
  unfold FetchedObjects.get
  rw [held]

namespace Cluster

def source : IndexedBatch → ObjectKey × ByteRange
  | .inline entry => (entry.reference.object, entry.bytes)
  | .footer object => (object.object, .full)

/-- A batch's bytes, as the store and the topic's key domain have them. -/
def content (self : Cluster) (topic : TopicId) (partition : Nat) :
    IndexedBatch → Except Error (List UInt8)
  | .inline entry => self.store entry.reference.object entry.bytes
  | .footer object => self.store object.object .full >>= self.sliceRegion topic partition

def Readable (self : Cluster) (topic : TopicId) (partition : Nat) (batch : IndexedBatch) : Prop :=
  ∃ blob stamped, self.content topic partition batch = .ok blob ∧
    rewriteBaseOffset blob batch.reference.baseOffset 0 = .ok stamped

theorem oneBatch_honest {self : Cluster} {topic : TopicId} {partition : Nat}
    {objects : FetchedObjects} (honest : objects.Honest self) (batch : IndexedBatch) :
    (self.oneBatch topic partition objects batch).2.Honest self ∧
      ∀ blob, (self.oneBatch topic partition objects batch).1.blob = .ok blob →
        self.content topic partition batch = .ok blob := by
  cases batch with
  | inline entry =>
    have fetched := honest.get entry.reference.object entry.bytes
    unfold oneBatch content
    dsimp only
    split <;> rename_i hget <;> rw [hget] at fetched
    · exact ⟨fetched.1, fetched.2⟩
    · exact ⟨fetched.1, fun blob h => by cases h⟩
  | footer object =>
    have fetched := honest.get object.object .full
    unfold oneBatch content
    dsimp only
    split <;> rename_i hget <;> rw [hget] at fetched
    · exact ⟨fetched.1, fun blob h => by cases h⟩
    · rw [fetched.2 _ rfl, bind_ok]
      split
      · rename_i hslice
        exact ⟨fetched.1, fun blob h => hslice.trans h⟩
      · rename_i hslice
        refine ⟨?_, fun blob h => by cases h⟩
        split
        · exact fetched.1.noteFailure
        · exact fetched.1

/-- A read serves a beginning of its page, every batch of it readable. -/
theorem readPage_ok {self : Cluster} {topic : TopicId} {partition : Nat} {allowance : Allowance}
    {page : List IndexedBatch} {served : List (IndexedBatch × List UInt8)} {fetched : Nat}
    {objects : FetchedObjects} (honest : objects.Honest self) {out : Read}
    (h : (self.readPage topic partition allowance page served fetched objects).1 = .ok out) :
    ∃ taken rest, page = taken ++ rest ∧
      out.served.map Prod.fst = served.map Prod.fst ++ taken ∧
      ∀ b ∈ taken, self.Readable topic partition b := by
  induction page generalizing served fetched objects with
  | nil =>
    cases h
    exact ⟨[], [], rfl, by simp, by simp⟩
  | cons batch page ih =>
    have stops : ∀ fetched', out = ⟨served, fetched'⟩ → ∃ taken rest,
        batch :: page = taken ++ rest ∧ out.served.map Prod.fst = served.map Prod.fst ++ taken ∧
          ∀ b ∈ taken, self.Readable topic partition b := by
      rintro fetched' rfl
      exact ⟨[], batch :: page, rfl, by simp, by simp⟩
    have one := @oneBatch_honest self topic partition objects honest batch
    unfold readPage at h
    split at h
    · exact stops _ (Except.ok.inj h).symm
    · dsimp only at h
      split at h
      · split at h
        · cases h
        · exact stops _ (Except.ok.inj h).symm
      · rename_i blob hblob
        split at h
        · cases h
        · rename_i stamped hstamped
          obtain ⟨taken, rest, hsplit, hserved, readable⟩ := ih one.1 h
          refine ⟨batch :: taken, rest, by rw [hsplit]; rfl, ?_, ?_⟩
          · rw [hserved]
            simp
          · intro b hb
            rcases List.mem_cons.mp hb with rfl | hb
            · exact ⟨blob, stamped, one.2 blob hblob, hstamped⟩
            · exact readable b hb

end Cluster

/-- The entries of a chain, newest link first, that begin below an offset, oldest first. -/
def listedBelow (upto : Nat) (links : List (ObjectKey × PartitionManifest)) : List ManifestEntry :=
  (links.reverse.flatMap fun link => link.2.entries).filter fun e => decide (e.baseOffset < upto)

theorem listedBelow_cons (upto : Nat) (link : ObjectKey × PartitionManifest)
    (rest : List (ObjectKey × PartitionManifest)) :
    listedBelow upto (link :: rest) = listedBelow upto rest ++
      link.2.entries.filter fun e => decide (e.baseOffset < upto) := by
  simp [listedBelow]

theorem mem_listedBelow {upto : Nat} {links : List (ObjectKey × PartitionManifest)}
    {entry : ManifestEntry} {link : ObjectKey × PartitionManifest} (hlink : link ∈ links)
    (hentry : entry ∈ link.2.entries) (below : entry.baseOffset < upto) :
    entry ∈ listedBelow upto links := by
  unfold listedBelow
  rw [List.mem_filter]
  exact ⟨List.mem_flatMap.mpr ⟨link, List.mem_reverse.mpr hlink, hentry⟩, by simpa using below⟩

/-- Links the store holds, each naming the next. -/
structure Linked (cluster : Cluster) (links : List (ObjectKey × PartitionManifest)) : Prop where
  stored : ∀ link ∈ links, ∃ bytes, cluster.store link.1 .full = .ok bytes ∧
    parsePartitionManifest bytes = .ok link.2
  names : links.IsChain fun newer older => newer.2.previous = some older.1

/-- A published chain that is consistent with a partition: from the log start
or below it, it lists every offset up to what the index says it covers. -/
structure Published (cluster : Cluster) (key : ObjectKey) (logStart upto : Nat)
    (links : List (ObjectKey × PartitionManifest)) : Prop where
  newest : links.head?.map Prod.fst = some key
  linked : Linked cluster links
  covers : ∃ low, low ≤ logStart ∧ EntryTiles (listedBelow upto links) low upto

/-- What the manifest tier answers out of one link. -/
def pageOf (manifest : PartitionManifest) (position upto : Nat) : List IndexedBatch :=
  ((entriesBelow manifest position upto).take maxBatchesPerPage).map inlineBatch

theorem Linked.tail {cluster : Cluster} {link : ObjectKey × PartitionManifest}
    {rest : List (ObjectKey × PartitionManifest)} (linked : Linked cluster (link :: rest)) :
    Linked cluster rest where
  stored := fun l hl => linked.stored l (List.mem_cons_of_mem _ hl)
  names := linked.names.tail

/-- The link whose entries hold an offset, and no other link of the chain. -/
structure Holds (links : List (ObjectKey × PartitionManifest)) (start depth : Nat)
    (manifest : PartitionManifest) (position : Nat) : Prop where
  link : (links[depth]?).map Prod.snd = some manifest
  found : manifest.position start = some position
  older : ∀ newer link, newer < depth → links[newer]? = some link → olderThan link.2 start = true
  unique : ∀ depth' link, links[depth']? = some link → link.2.position start ≠ none → depth' = depth

theorem position_none_of_lt {m : PartitionManifest} {start : Nat}
    (below : ∀ e ∈ m.entries, start < e.baseOffset) : m.position start = none := by
  cases h : m.position start with
  | none => rfl
  | some position =>
    obtain ⟨entry, hentry, base, -⟩ := PartitionManifest.position_eq_some h
    have := below entry (List.mem_of_getElem? hentry)
    omega

theorem exists_holds {cluster : Cluster} {links : List (ObjectKey × PartitionManifest)}
    (linked : Linked cluster links) {start upto low high : Nat} (begins : low ≤ start)
    (ends : start < high) (within : high ≤ upto) (fits : high ≤ i64Max)
    (tiles : EntryTiles (listedBelow upto links) low high) :
    ∃ depth manifest position, Holds links start depth manifest position := by
  induction links generalizing high with
  | nil =>
    have : low = high := tiles
    omega
  | cons link rest ih =>
    obtain ⟨bytes, -, parsed⟩ := linked.stored link (List.mem_cons_self ..)
    obtain ⟨listed, entryLow, entryHigh, entryTiles⟩ := parsePartitionManifest_tiles parsed
    rw [listedBelow_cons] at tiles
    obtain ⟨middle, hrest, hlink⟩ := Tiles.append_iff.mp tiles
    by_cases older : start < middle
    · have middleLe := hlink.le
      obtain ⟨depth, manifest, position, holds⟩ :=
        ih linked.tail older (by omega) (by omega) hrest
      have past : ∀ e ∈ link.2.entries, start < e.baseOffset := by
        intro e he
        by_cases below : e.baseOffset < upto
        · have := hlink.bounds (List.mem_filter.mpr ⟨he, by simpa using below⟩)
          omega
        · omega
      refine ⟨depth + 1, manifest, position, holds.link, holds.found, ?_, ?_⟩
      · intro newer link' hnewer hlink'
        cases newer with
        | zero =>
          cases hlink'
          obtain ⟨first, entries, hentries⟩ := List.exists_cons_of_ne_nil listed
          have := past first (by simp [hentries])
          simpa [olderThan, hentries] using this
        | succ newer => exact holds.older newer link' (by omega) hlink'
      · intro depth' link' hlink' found
        cases depth' with
        | zero =>
          cases hlink'
          exact absurd (position_none_of_lt past) found
        | succ depth' => rw [holds.unique depth' link' hlink' found]
    · obtain ⟨entry, hentry, holds⟩ := (hlink.cover start).mp ⟨by omega, ends⟩
      have inside := hlink.bounds hentry
      obtain ⟨position, found⟩ := PartitionManifest.position_of_holds entryTiles
        (List.mem_filter.mp hentry).1 holds (by omega)
      refine ⟨0, link.2, position, rfl, found, fun _ _ h => absurd h (Nat.not_lt_zero _), ?_⟩
      intro depth' link' hlink' found'
      cases depth' with
      | zero => rfl
      | succ depth' =>
        obtain ⟨position', hposition'⟩ := Option.ne_none_iff_exists'.mp found'
        obtain ⟨entry', hentry', base, stop⟩ := PartitionManifest.position_eq_some hposition'
        rw [List.getElem?_cons_succ] at hlink'
        have listed := @mem_listedBelow upto _ _ _ (List.mem_of_getElem? hlink')
          (List.mem_of_getElem? hentry') (by omega)
        have := hrest.bounds listed
        omega

theorem Holds.tail {link : ObjectKey × PartitionManifest}
    {rest : List (ObjectKey × PartitionManifest)} {start depth position : Nat}
    {manifest : PartitionManifest} (holds : Holds (link :: rest) start (depth + 1) manifest position) :
    Holds rest start depth manifest position where
  link := holds.link
  found := holds.found
  older := fun newer link' hnewer hlink' => holds.older (newer + 1) link' (by omega) hlink'
  unique := fun depth' link' hlink' found =>
    Nat.succ.inj (holds.unique (depth' + 1) link' hlink' found)

theorem Holds.next {cluster : Cluster} {link : ObjectKey × PartitionManifest}
    {rest : List (ObjectKey × PartitionManifest)} (linked : Linked cluster (link :: rest))
    {start depth position : Nat} {manifest : PartitionManifest}
    (holds : Holds (link :: rest) start (depth + 1) manifest position) :
    link.2.position start = none ∧ ∃ previous, rest.head?.map Prod.fst = some previous ∧
      (link.2.previous.filter fun _ => olderThan link.2 start) = some previous := by
  refine ⟨?_, ?_⟩
  · by_contra found
    have := holds.unique 0 link rfl found
    omega
  · have older := holds.older 0 link (Nat.succ_pos _) rfl
    cases rest with
    | nil =>
      have := holds.link
      simp at this
    | cons next rest =>
      have names : link.2.previous = some next.1 := (List.isChain_cons_cons.mp linked.names).1
      exact ⟨next.1, rfl, by simp [names, older]⟩

namespace Cluster

/-- What the manifest tier answers is a page of the link that holds the start. -/
theorem manifestBatches_ok {self : Cluster} {links : List (ObjectKey × PartitionManifest)}
    (linked : Linked self links) {start upto depth position : Nat} {manifest : PartitionManifest}
    (holds : Holds links start depth manifest position) {hops cost : Nat} {key : ObjectKey}
    {objects : FetchedObjects} (newest : links.head?.map Prod.fst = some key)
    (honest : objects.Honest self) :
    (self.manifestBatches start upto hops key cost objects).2.Honest self ∧
      ∀ batches, (self.manifestBatches start upto hops key cost objects).1.batches = .ok batches →
        depth < hops ∧ batches = pageOf manifest position upto := by
  induction hops generalizing links depth key cost objects with
  | zero => exact ⟨honest, fun batches h => by cases h⟩
  | succ hops ih =>
    cases links with
    | nil => simp at newest
    | cons link rest =>
      obtain rfl : link.1 = key := by simpa using newest
      have fetched := honest.get link.1 .full
      obtain ⟨stored, hstored, parsed⟩ := linked.stored link (List.mem_cons_self ..)
      unfold manifestBatches
      split <;> rename_i hget <;> rw [hget] at fetched
      · exact ⟨fetched.1, fun batches h => by cases h⟩
      · have same := hstored.symm.trans (fetched.2 _ rfl)
        cases same
        simp only [parsed]
        cases depth with
        | zero =>
          obtain rfl : link.2 = manifest := by simpa using holds.link
          simp only [holds.found]
          exact ⟨fetched.1, fun batches h => ⟨Nat.succ_pos _, (Except.ok.inj h).symm⟩⟩
        | succ depth =>
          obtain ⟨missed, previous, hprevious, hfilter⟩ := holds.next linked
          simp only [missed, hfilter]
          obtain ⟨honest', onward⟩ := @ih _ linked.tail _ holds.tail _ _ _ hprevious fetched.1
          refine ⟨honest', fun batches h => ?_⟩
          obtain ⟨inside, heq⟩ := onward batches h
          exact ⟨by omega, heq⟩

/-- With every link remembered, the page is answered for nothing. -/
theorem manifestBatches_seen {self : Cluster} {links : List (ObjectKey × PartitionManifest)}
    (linked : Linked self links) {start upto depth position : Nat} {manifest : PartitionManifest}
    (holds : Holds links start depth manifest position) {hops cost : Nat} {key : ObjectKey}
    {objects : FetchedObjects} (newest : links.head?.map Prod.fst = some key)
    (seen : ∀ link ∈ links,
      objects.seen.lookup (link.1, .full) = some (self.store link.1 .full))
    (within : depth < hops) :
    self.manifestBatches start upto hops key cost objects =
      (⟨.ok (pageOf manifest position upto), cost⟩, objects) := by
  induction hops generalizing links depth key with
  | zero => omega
  | succ hops ih =>
    cases links with
    | nil => simp at newest
    | cons link rest =>
      obtain rfl : link.1 = key := by simpa using newest
      obtain ⟨stored, hstored, parsed⟩ := linked.stored link (List.mem_cons_self ..)
      have answered := seen link (List.mem_cons_self ..)
      rw [hstored] at answered
      unfold manifestBatches
      simp only [FetchedObjects.get_seen answered, parsed, costOf]
      cases depth with
      | zero =>
        obtain rfl : link.2 = manifest := by simpa using holds.link
        simp only [holds.found]
        rfl
      | succ depth =>
        obtain ⟨missed, previous, hprevious, hfilter⟩ := holds.next linked
        simp only [missed, hfilter]
        exact ih linked.tail holds.tail hprevious
          (fun l hl => seen l (List.mem_cons_of_mem _ hl)) (by omega)

end Cluster

/-- A link's entries from its start on reach `upto`, and a page holds them. -/
def Reaches (manifest : PartitionManifest) (position upto : Nat) : Prop :=
  (entriesBelow manifest position upto).length ≤ maxBatchesPerPage ∧
    ∀ last, (entriesBelow manifest position upto).getLast? = some last → last.stop = upto

theorem entriesBelow_spec {m : PartitionManifest} {start position upto low high : Nat}
    (tiles : EntryTiles m.entries low high) (found : m.position start = some position)
    (below : start < upto) :
    ∃ first rest stop, entriesBelow m position upto = first :: rest ∧
      first.baseOffset ≤ start ∧ start < first.stop ∧
      EntryTiles (first :: rest) first.baseOffset stop := by
  obtain ⟨first, hfirst, base, stop⟩ := PartitionManifest.position_eq_some found
  obtain ⟨inside, hget⟩ := List.getElem?_eq_some_iff.mp hfirst
  have dropped := List.drop_eq_getElem_cons inside
  rw [hget] at dropped
  rw [← List.take_append_drop position m.entries, dropped] at tiles
  obtain ⟨middle, -, htiles⟩ := Tiles.append_iff.mp tiles
  have begins : first.baseOffset = middle := htiles.1
  have cut : entriesBelow m position upto = first :: (m.entries.drop (position + 1)).takeWhile
      fun entry => decide (entry.baseOffset < upto) := by
    unfold entriesBelow
    rw [dropped, List.takeWhile_cons_of_pos]
    simp only [decide_eq_true_eq]
    omega
  obtain ⟨after, hafter⟩ := List.takeWhile_prefix (l := m.entries.drop (position + 1))
    (fun entry => decide (entry.baseOffset < upto))
  rw [← hafter, ← List.cons_append] at htiles
  obtain ⟨stop', hrun, -⟩ := Tiles.append_iff.mp htiles
  exact ⟨first, _, stop', cut, base, stop, begins ▸ hrun⟩

/-- A page begins with the batch that holds the start and has no hole; it ends
at `upto` exactly when its link reaches it. -/
theorem pageOf_spec {m : PartitionManifest} {start position upto low high : Nat}
    (tiles : EntryTiles m.entries low high) (found : m.position start = some position)
    (below : start < upto) :
    ∃ first rest low stop, pageOf m position upto = first :: rest ∧ low ≤ start ∧
      start < first.reference.stop ∧ BatchTiles (pageOf m position upto) low stop ∧
      (stop = upto ↔ Reaches m position upto) := by
  obtain ⟨first, rest, stop, hentries, base, past, htiles⟩ := entriesBelow_spec tiles found below
  rw [← hentries] at htiles
  have whole := htiles
  rw [← List.take_append_drop maxBatchesPerPage (entriesBelow m position upto)] at htiles
  obtain ⟨middle, hpage, hafter⟩ := Tiles.append_iff.mp htiles
  refine ⟨inlineBatch first, (rest.take (maxBatchesPerPage - 1)).map inlineBatch, first.baseOffset,
    middle, ?_, base, past, Tiles.map_iff.mpr hpage, ?_⟩
  · unfold pageOf
    rw [hentries]
    rfl
  · constructor
    · rintro rfl
      have all : (entriesBelow m position middle).drop maxBatchesPerPage = [] := by
        cases hdrop : (entriesBelow m position middle).drop maxBatchesPerPage with
        | nil => rfl
        | cons next after =>
          rw [hdrop] at hafter
          have begins : next.baseOffset = middle := hafter.1
          have member : next ∈ entriesBelow m position middle :=
            List.mem_of_mem_drop (i := maxBatchesPerPage) (by simp [hdrop])
          have under := List.mem_takeWhile_imp member
          simp only [decide_eq_true_eq] at under
          omega
      refine ⟨List.drop_eq_nil_iff.mp all, ?_⟩
      intro last hlast
      rw [all] at hafter
      have ends : middle = stop := hafter
      rw [ends]
      exact whole.getLast_hi hlast
    · rintro ⟨fits, ends⟩
      rw [List.take_of_length_le fits] at hpage
      have nonempty : entriesBelow m position upto ≠ [] := by simp [hentries]
      obtain ⟨last, hlast⟩ := List.getLast?_isSome.mpr nonempty |> Option.isSome_iff_exists.mp
      rw [← hpage.getLast_hi hlast]
      exact ends last hlast

end Oqueue.Broker
