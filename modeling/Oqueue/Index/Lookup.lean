import Oqueue.Index.Page
import Oqueue.Index.Reachable
import Oqueue.Library.Paged

/-!
# A lookup loses no offset

`findBatches` starts its walk from a binary search and stops it at two bounds. What
it answers is the first page of a plain scan, and a reader that asks again from where
each page ends visits every entry from its start on, once.
-/

namespace Oqueue

open Checked Tiling

namespace Page

/-- What a page keeps of the batches offered to it, up to the first it refuses. -/
def fill : Page → List IndexedBatch → Page
  | page, [] => page
  | page, batch :: rest =>
    match page.push batch with
    | (page, true) => fill page rest
    | (page, false) => page

end Page

namespace PartitionIndex

/-- The first page of a scan over history followed by tail, keeping what ends past `start`. -/
def scan (self : PartitionIndex) (start maxBytes : Nat) : List IndexedBatch :=
  (Page.fill { maxBytes := maxBytes }
    (self.resident.filter fun b => decide (start < b.reference.stop))).batches

end PartitionIndex

namespace IndexState

def scan (self : IndexState) (key : PartitionKey) (start maxBytes : Nat) : List IndexedBatch :=
  (self.partition key).elim [] fun slot => slot.scan start maxBytes

/-- Every entry of one partition that ends past `start`, history before tail. -/
def entriesFrom (self : IndexState) (key : PartitionKey) (start : Nat) : List IndexedBatch :=
  (self.partition key).elim [] fun slot =>
    slot.resident.filter fun b => decide (start < b.reference.stop)

/-- One lookup for each budget, each from where the one before it ended: what they
named, and where they got to. -/
def follow (self : IndexState) (key : PartitionKey) (budgets : List Nat) (start : Nat) :
    Except Error (List IndexedBatch × Nat) :=
  Paged.follow (fun b : IndexedBatch => b.reference.stop)
    (budgets.map fun maxBytes cursor => self.findBatches key cursor maxBytes) start

end IndexState

namespace Page

/-- Filtering inside the loop or before it leaves the same page. -/
theorem pushAll_eq_fill {start : Nat} {batches : List IndexedBatch}
    (fits : ∀ b ∈ batches, b.reference.stop ≤ i64Max) (page : Page) :
    pushAll start page batches =
      .ok (page.fill (batches.filter fun b => decide (start < b.reference.stop))) := by
  induction batches generalizing page with
  | nil => rfl
  | cons batch batches ih =>
    have rest : ∀ b ∈ batches, b.reference.stop ≤ i64Max :=
      fun b hb => fits b (List.mem_cons_of_mem _ hb)
    unfold pushAll
    rw [ObjectRef.endOffset_of_le (fits batch (List.mem_cons_self ..)), bind_ok]
    by_cases past : start < batch.reference.stop
    · rw [if_pos past, List.filter_cons_of_pos (by simpa using past)]
      unfold fill push
      by_cases room : page.fits batch = true
      · rw [if_pos room]
        exact ih rest _
      · rw [if_neg room]
        rfl
    · rw [if_neg past, List.filter_cons_of_neg (by simpa using past)]
      exact ih rest page

theorem push_length {page page' : Page} {batch : IndexedBatch}
    (h : page.push batch = (page', true)) : page'.batches.length ≤ maxBatchesPerPage := by
  unfold push at h
  split at h
  case isFalse => cases h
  case isTrue room =>
    cases h
    unfold fits at room
    rw [List.length_append, List.length_singleton]
    rcases (Bool.or_eq_true ..).mp room with empty | below
    · rw [List.isEmpty_iff.mp empty]
      exact Nat.le_of_ble_eq_true rfl
    · have := of_decide_eq_true ((Bool.and_eq_true ..).mp below).1
      omega

theorem fill_length {page : Page} (bounded : page.batches.length ≤ maxBatchesPerPage)
    (batches : List IndexedBatch) : (page.fill batches).batches.length ≤ maxBatchesPerPage := by
  induction batches generalizing page with
  | nil => exact bounded
  | cons batch batches ih =>
    unfold fill
    split
    case h_1 page' pushed => exact ih (push_length pushed)
    case h_2 page' refused =>
      unfold push at refused
      split at refused
      · cases refused
      · cases refused
        exact bounded

end Page

namespace PartitionIndex

theorem WF.resident_fits {p : PartitionIndex} (wf : p.WF) :
    ∀ b ∈ p.resident, b.reference.stop ≤ i64Max := by
  intro b hb
  refine wf.stop_le ?_
  rw [← p.resident_reference]
  exact List.mem_map_of_mem hb

theorem candidates_subset (p : PartitionIndex) (start : Nat) :
    ∀ b ∈ p.candidates start, b ∈ p.resident := by
  intro b hb
  rcases List.mem_append.mp hb with hb | hb
  · exact List.mem_append_left _ (List.map_subset _ (List.drop_subset _ _) hb)
  · exact List.mem_append_right _ hb

theorem WF.findBatches_eq_scan {p : PartitionIndex} (wf : p.WF) {start : Nat}
    (started : p.logStart ≤ start) (maxBytes : Nat) :
    p.findBatches start maxBytes = .ok (p.scan start maxBytes) := by
  have fits : ∀ b ∈ p.candidates start, b.reference.stop ≤ i64Max :=
    fun b hb => wf.resident_fits b (p.candidates_subset start b hb)
  unfold findBatches scan
  rw [if_neg (Nat.not_lt.mpr started), Page.pushAll_eq_fill fits, bind_ok, wf.candidates_filter]
  rfl

theorem scan_length (p : PartitionIndex) (start maxBytes : Nat) :
    (p.scan start maxBytes).length ≤ maxBatchesPerPage :=
  Page.fill_length (Nat.zero_le _) _

theorem WF.held_from {p : PartitionIndex} (wf : p.WF) {start : Nat} (started : p.logStart ≤ start)
    (manifested : ∀ held, p.manifest = some held → held.2 ≤ start) :
    ∃ low, low ≤ start ∧ RefTiles p.refs low p.endOffset := by
  cases held : p.manifest with
  | none =>
    obtain ⟨first, below, tiles⟩ := wf.reaches held
    exact ⟨first, below.trans started, tiles⟩
  | some held' => exact ⟨held'.2, manifested held' held, wf.manifest_meets held' held⟩

theorem WF.lookups {p : PartitionIndex} (wf : p.WF) (maxBytes : Nat) :
    Paged.Pages (fun b : IndexedBatch => b.reference.stop) p.resident p.logStart
      fun cursor => p.findBatches cursor maxBytes :=
  fun _ started => wf.findBatches_spec started maxBytes

/-- What one lookup names, of what is held from its start on. -/
theorem WF.scan_spec {p : PartitionIndex} (wf : p.WF) {start : Nat} (started : p.logStart ≤ start)
    (manifested : ∀ held, p.manifest = some held → held.2 ≤ start) (below : start < p.endOffset)
    (maxBytes : Nat) :
    ∃ first rest, p.scan start maxBytes = first :: rest ∧
      first.reference.baseOffset ≤ start ∧ start < first.reference.stop ∧
      (first :: rest).IsChain fun b next => next.reference.baseOffset = b.reference.stop := by
  obtain ⟨low, lowest, tiles⟩ := wf.held_from started manifested
  obtain ⟨first, ahead, hfrom, begins, past, hahead⟩ :=
    Paged.from_tiles (tiles_resident.mp tiles) lowest below
  obtain ⟨batches, later, hfind, hsplit, nonempty⟩ := wf.findBatches_spec started maxBytes
  have named : p.scan start maxBytes = batches :=
    Except.ok.inj ((wf.findBatches_eq_scan started maxBytes).symm.trans hfind)
  have split : first :: ahead = batches ++ later := hfrom.symm.trans hsplit
  have held : batches ≠ [] := nonempty (fun none => List.cons_ne_nil _ _ (hfrom.symm.trans none))
  obtain ⟨head, rest, hbatches⟩ := List.exists_cons_of_ne_nil held
  rw [hbatches, List.cons_append, List.cons.injEq] at split
  rw [split.1, split.2, ← List.cons_append] at hahead
  obtain ⟨middle, hpage, -⟩ := Tiles.append_iff.mp hahead
  refine ⟨head, rest, named.trans hbatches, split.1 ▸ begins, split.1 ▸ past, ?_⟩
  exact hpage.isChain

theorem WF.follow_eq {p : PartitionIndex} (wf : p.WF) {start : Nat} (started : p.logStart ≤ start)
    (manifested : ∀ held, p.manifest = some held → held.2 ≤ start) (within : start ≤ p.endOffset)
    {budgets : List Nat} (enough : p.endOffset - start ≤ budgets.length) :
    Paged.follow (fun b : IndexedBatch => b.reference.stop)
        (budgets.map fun maxBytes cursor => p.findBatches cursor maxBytes) start =
      .ok (p.resident.filter fun b => decide (start < b.reference.stop), p.endOffset) := by
  obtain ⟨low, lowest, tiles⟩ := wf.held_from started manifested
  refine Paged.follow_eq (tiles_resident.mp tiles) ?_ started lowest within ?_
  · intro page among
    obtain ⟨maxBytes, -, rfl⟩ := List.mem_map.mp among
    exact wf.lookups maxBytes
  · rwa [List.length_map]

end PartitionIndex

namespace IndexState

/-- Every lookup of a folded index inside its partition's resident range: it is the
first page of a scan, holds its start, has no hole, and leads on to the end. -/
theorem lookup_whole {quota : Option IndexQuota} {pages : List (List MetadataEntry)}
    {s : IndexState} (folded : pages.foldlM apply { quota := quota } = .ok s) (key : PartitionKey)
    (start : Nat) (started : s.logStart key ≤ start) (below : start < s.endOffset key)
    (manifested : ∀ held, s.manifest key = some held → held.2 ≤ start) :
    (∀ maxBytes, ∃ first rest, s.findBatches key start maxBytes = .ok (first :: rest) ∧
      first :: rest = s.scan key start maxBytes ∧
      (first :: rest).length ≤ maxBatchesPerPage ∧
      first.reference.baseOffset ≤ start ∧ start < first.reference.stop ∧
      (first :: rest).IsChain fun b next => next.reference.baseOffset = b.reference.stop) ∧
    (∀ budgets, s.endOffset key - start ≤ budgets.length →
      s.follow key budgets start = .ok (s.entriesFrom key start, s.endOffset key)) ∧
    (s.entriesFrom key start).Nodup := by
  cases held : s.partition key with
  | none =>
    unfold endOffset at below
    rw [held] at below
    exact absurd below (Nat.not_lt_zero _)
  | some p =>
    have wf : p.WF := (Sound.fold (Sound.empty quota) folded).wf key p held
    unfold logStart at started
    unfold endOffset at below ⊢
    unfold manifest at manifested
    rw [held] at started below manifested ⊢
    have lookups : s.findBatches key = p.findBatches :=
      funext₂ fun start maxBytes => findBatches_of_held held start maxBytes
    have scanned : s.scan key = p.scan := by
      unfold scan
      rw [held]
      rfl
    have entries : s.entriesFrom key start =
        p.resident.filter fun b => decide (start < b.reference.stop) := by
      unfold entriesFrom
      rw [held]
      rfl
    unfold follow
    rw [lookups, scanned, entries]
    refine ⟨fun maxBytes => ?_, fun budgets enough => ?_, ?_⟩
    · obtain ⟨first, rest, hscan, begins, past, chain⟩ :=
        wf.scan_spec started manifested below maxBytes
      have bounded := p.scan_length start maxBytes
      rw [hscan] at bounded
      refine ⟨first, rest, ?_, hscan.symm, bounded, begins, past, chain⟩
      rw [wf.findBatches_eq_scan started maxBytes, hscan]
    · exact wf.follow_eq started manifested below.le enough
    · obtain ⟨low, tiles⟩ := wf.tiles
      exact (PartitionIndex.tiles_resident.mp tiles).nodup.filter _

/-- From inside the second of three batches left by a trim, one at a time. -/
theorem lookup_whole_trimmedLog :
    ∃ s, trimmedLog.foldlM apply { quota := none } = .ok s ∧ s.logStart (⟨"t"⟩, 0) = 3 ∧
      s.endOffset (⟨"t"⟩, 0) = 6 ∧
      s.follow (⟨"t"⟩, 0) [0, 0] 4 = .ok (s.entriesFrom (⟨"t"⟩, 0) 4, 6) := by
  refine ⟨_, rfl, rfl, rfl, ?_⟩
  refine (@lookup_whole none trimmedLog _ rfl (⟨"t"⟩, 0) 4 ?_ ?_ ?_).2.1 [0, 0] ?_
  · exact Nat.le_of_ble_eq_true rfl
  · exact Nat.le_of_ble_eq_true rfl
  · intro held none
    cases none
  · exact Nat.le_of_ble_eq_true rfl

end IndexState

end Oqueue
