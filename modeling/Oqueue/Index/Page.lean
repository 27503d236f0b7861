import Oqueue.Index.Paging

/-!
# The page a cold read is bounded by

`findBatches` names the objects a fetch from an offset must read, history before
tail, under a count and a byte budget that always let one batch through.
-/

namespace Oqueue

open Checked Tiling

def maxBatchesPerPage : Nat := 64

/-- A batch the index names: with its byte range, or to be resolved by a footer. -/
inductive IndexedBatch where
  | inline (entry : TailEntry)
  | footer (object : ObjectRef)
  deriving DecidableEq, Repr

namespace IndexedBatch

def reference : IndexedBatch → ObjectRef
  | .inline entry => entry.reference
  | .footer object => object

/-- How many bytes reading this will cost, when the index knows. -/
def knownLen : IndexedBatch → Option Nat
  | .inline ⟨_, .bounded _ length⟩ => some length
  | _ => none

end IndexedBatch

structure Page where
  batches : List IndexedBatch := []
  spent : Nat := 0
  maxBytes : Nat

namespace Page

/-- Whether both bounds let one more batch in; the first always is. -/
def fits (self : Page) (batch : IndexedBatch) : Bool :=
  self.batches.isEmpty || (decide (self.batches.length < maxBatchesPerPage) &&
    batch.knownLen.all fun len => decide (saturatingAdd self.spent len ≤ self.maxBytes))

def push (self : Page) (batch : IndexedBatch) : Page × Bool :=
  if self.fits batch then
    ({ self with
        batches := self.batches ++ [batch]
        spent := (batch.knownLen.map (saturatingAdd self.spent)).getD self.spent }, true)
  else (self, false)

/-- Pushes the batches that end past `start`; the first refused one ends the page. -/
def pushAll (start : Nat) : Page → List IndexedBatch → Except Error Page
  | page, [] => .ok page
  | page, batch :: rest => do
    if start < (← batch.reference.endOffset) then
      match page.push batch with
      | (page, true) => pushAll start page rest
      | (page, false) => return page
    else pushAll start page rest

end Page

namespace PartitionIndex

/-- The earliest history entry that can still hold `start`: one back from the
first that begins past it. -/
def firstCandidate (self : PartitionIndex) (start : Nat) : Nat :=
  (self.history.takeWhile fun reference => reference.baseOffset ≤ start).length - 1

/-- The entries a lookup walks, history before tail. -/
def candidates (self : PartitionIndex) (start : Nat) : List IndexedBatch :=
  (self.history.drop (self.firstCandidate start)).map .footer ++ self.tail.map .inline

def findBatches (self : PartitionIndex) (start maxBytes : Nat) :
    Except Error (List IndexedBatch) :=
  if start < self.logStart then .error (.belowLogStart start self.logStart)
  else do
    let page ← Page.pushAll start { maxBytes := maxBytes } (self.candidates start)
    return page.batches

end PartitionIndex

namespace IndexState

/-- The objects a fetch from `start` must read. -/
def findBatches (self : IndexState) (key : PartitionKey) (start maxBytes : Nat) :
    Except Error (List IndexedBatch) :=
  match self.partition key with
  | none => .ok []
  | some slot => slot.findBatches start maxBytes

end IndexState

/-- A page is some of what it was given, in order and without a hole. -/
theorem Page.pushAll_spec {start : Nat} {page : Page} {batches : List IndexedBatch}
    (fits : ∀ b ∈ batches, b.reference.stop ≤ i64Max) :
    ∃ page' taken rest, Page.pushAll start page batches = .ok page' ∧
      batches.filter (fun b => decide (start < b.reference.stop)) = taken ++ rest ∧
      page'.batches = page.batches ++ taken ∧
      (page.batches = [] → batches.filter (fun b => decide (start < b.reference.stop)) ≠ [] →
        taken ≠ []) := by
  induction batches generalizing page with
  | nil => exact ⟨page, [], [], rfl, rfl, by simp, fun _ h => absurd rfl h⟩
  | cons batch batches ih =>
    have stop := ObjectRef.endOffset_of_le (fits batch (List.mem_cons_self ..))
    have restFits : ∀ b ∈ batches, b.reference.stop ≤ i64Max :=
      fun b hb => fits b (List.mem_cons_of_mem _ hb)
    unfold Page.pushAll
    rw [stop, bind_ok]
    by_cases past : start < batch.reference.stop
    · rw [if_pos past, List.filter_cons_of_pos (by simpa using past)]
      unfold Page.push
      by_cases room : page.fits batch = true
      · rw [if_pos room]
        obtain ⟨page', taken, rest, hpush, hsplit, hbatches, -⟩ := @ih { page with
          batches := page.batches ++ [batch]
          spent := (batch.knownLen.map (saturatingAdd page.spent)).getD page.spent } restFits
        refine ⟨page', batch :: taken, rest, hpush, by rw [hsplit]; rfl, ?_, fun _ _ => by simp⟩
        rw [hbatches, List.append_assoc]
        rfl
      · rw [if_neg room]
        refine ⟨page, [], _, rfl, rfl, by simp, ?_⟩
        intro empty
        simp [Page.fits, empty] at room
    · rw [if_neg past, List.filter_cons_of_neg (by simpa using past)]
      exact ih restFits

namespace PartitionIndex

/-- Every resident entry, as a lookup names it. -/
def resident (self : PartitionIndex) : List IndexedBatch :=
  self.history.map .footer ++ self.tail.map .inline

theorem resident_reference (p : PartitionIndex) :
    p.resident.map IndexedBatch.reference = p.refs := by
  simp [resident, refs, IndexedBatch.reference, Function.comp_def]

theorem tiles_resident {p : PartitionIndex} {low high : Nat} : RefTiles p.refs low high ↔
    Tiles (ObjectRef.baseOffset ∘ IndexedBatch.reference) (ObjectRef.stop ∘ IndexedBatch.reference)
      p.resident low high := by
  rw [← p.resident_reference]
  exact Tiles.map_iff

theorem WF.candidates_filter {p : PartitionIndex} (wf : p.WF) (start : Nat) :
    (p.candidates start).filter (fun b => decide (start < b.reference.stop)) =
      p.resident.filter fun b => decide (start < b.reference.stop) := by
  obtain ⟨first, htiles⟩ := wf.tiles
  obtain ⟨middle, hhistory, -⟩ := Tiles.append_iff.mp htiles
  have skipped : (p.history.take (p.firstCandidate start)).filter
      (fun r => decide (start < r.stop)) = [] := by
    rw [List.filter_eq_nil_iff]
    intro r hr
    have := hhistory.hi_le_of_mem_take hr
    simpa using this
  have kept : (p.history.drop (p.firstCandidate start)).filter (fun r => decide (start < r.stop)) =
      p.history.filter fun r => decide (start < r.stop) := by
    have whole := congrArg (List.filter fun r => decide (start < r.stop))
      (List.take_append_drop (p.firstCandidate start) p.history)
    rwa [List.filter_append, skipped, List.nil_append] at whole
  have footers : ∀ refs : List ObjectRef, (refs.map IndexedBatch.footer).filter
      (fun b => decide (start < b.reference.stop)) =
        (refs.filter fun r => decide (start < r.stop)).map .footer := by
    intro refs
    rw [List.filter_map]
    rfl
  unfold candidates resident
  rw [List.filter_append, List.filter_append, footers, footers, kept]

/-- A lookup names the resident entries from the first that ends past its start,
some of them, in order, and at least one when there is one. -/
theorem WF.findBatches_spec {p : PartitionIndex} (wf : p.WF) {start : Nat}
    (started : p.logStart ≤ start) (maxBytes : Nat) :
    ∃ batches rest, p.findBatches start maxBytes = .ok batches ∧
      p.resident.filter (fun b => decide (start < b.reference.stop)) = batches ++ rest ∧
      (p.resident.filter (fun b => decide (start < b.reference.stop)) ≠ [] → batches ≠ []) := by
  have fits : ∀ b ∈ p.candidates start, b.reference.stop ≤ i64Max := by
    intro b hb
    refine wf.stop_le ?_
    rcases List.mem_append.mp hb with hb | hb
    · obtain ⟨r, hr, rfl⟩ := List.mem_map.mp hb
      exact mem_refs_of_history (List.drop_subset _ _ hr)
    · obtain ⟨e, he, rfl⟩ := List.mem_map.mp hb
      exact mem_refs_of_tail he
  obtain ⟨page, taken, rest, hpush, hsplit, hbatches, hne⟩ :=
    @Page.pushAll_spec start { maxBytes := maxBytes } _ fits
  rw [wf.candidates_filter] at hsplit hne
  refine ⟨taken, rest, ?_, hsplit, hne rfl⟩
  unfold findBatches
  rw [if_neg (Nat.not_lt.mpr started), hpush, bind_ok]
  exact congrArg Except.ok hbatches

end PartitionIndex

theorem IndexState.findBatches_of_held {s : IndexState} {key : PartitionKey} {p : PartitionIndex}
    (held : s.partition key = some p) (start maxBytes : Nat) :
    s.findBatches key start maxBytes = p.findBatches start maxBytes := by
  unfold IndexState.findBatches
  rw [held]

end Oqueue
