import Oqueue.Coordinator.Allocator
import Oqueue.Index.Entry

/-!
# The allocator and the index agree on every offset

One shard is driven through requests. A request is staged on the allocator and
then either journaled, and folded by both, or refused, and folded by neither.
Compactions, publications and epoch changes reach the log without being staged;
the allocator meets them as a replay does.
-/

namespace Oqueue

open Checked Tiling

inductive Request where
  | commit (object : ObjectKey) (spans : List CommittedSpan) (writtenAt : Nat)
  | trim (topic : TopicId) (partition start : Nat)
  | retention (topic : TopicId) (retentionMs : Option Int)
  | compaction (version : Nat) (topic : TopicId) (partition : Nat)
      (retiring installing : List ObjectRef)
  | publication (version : Nat) (topic : TopicId) (partition : Nat) (manifest : ObjectKey)
      (upto : Nat)
  | epochChange (version epoch : Nat)

/-- A commit's acknowledgement: its entry, and where each span landed. -/
structure Ack where
  object : ObjectKey
  entry : MetadataEntry
  assignments : List Assignment

/-- One shard's allocator and index, the log they fold, and what was acknowledged. -/
structure Shard where
  allocator : Allocator := {}
  index : IndexState := .new
  log : List MetadataEntry := []
  acks : List Ack := []

namespace Shard

/-- The journal has the entry: the allocator takes the position, the index folds the entry. -/
def take (self : Shard) (staged : Allocator.Staged) (acks : List Ack) : Except Error Shard := do
  let index ← self.index.apply [staged.entry]
  return {
    allocator := (self.allocator.apply staged).1
    index := index
    log := self.log ++ [staged.entry]
    acks := self.acks ++ acks }

/-- A staged request, journaled or refused by the journal. -/
def settle (self : Shard) (journaled : Bool) (staged : Except Error Allocator.Staged)
    (acks : Allocator.Staged → List Ack) : Except Error Shard :=
  match staged with
  | .error _ => .ok self
  | .ok staged => if journaled then self.take staged (acks staged) else .ok self

/-- An entry no request of this shard staged; one either fold refuses is never written. -/
def meet (self : Shard) (journaled : Bool) (entry : MetadataEntry) : Except Error Shard :=
  match self.allocator.replay entry, self.index.apply [entry] with
  | .ok allocator, .ok index =>
    if journaled then
      .ok { self with allocator := allocator, index := index, log := self.log ++ [entry] }
    else .ok self
  | _, _ => .ok self

def step (self : Shard) (request : Request × Bool) : Except Error Shard :=
  match request.1 with
  | .commit object spans writtenAt =>
    self.settle request.2 (self.allocator.stage object spans writtenAt) fun staged =>
      [⟨object, staged.entry, staged.assignments⟩]
  | .trim topic partition start =>
    self.settle request.2 (self.allocator.stageTrim topic partition start) fun _ => []
  | .retention topic retentionMs =>
    self.settle request.2 (self.allocator.stageRetention topic retentionMs) fun _ => []
  | .compaction version topic partition retiring installing =>
    self.meet request.2 ⟨version, .rangeCompacted topic partition retiring installing⟩
  | .publication version topic partition manifest upto =>
    self.meet request.2 ⟨version, .manifestPublished topic partition manifest upto⟩
  | .epochChange version epoch => self.meet request.2 ⟨version, .epochChanged epoch⟩

def run (requests : List (Request × Bool)) : Except Error Shard := requests.foldlM step {}

/-- The acknowledged ranges of one partition, in the order they were acknowledged. -/
def acked (self : Shard) (key : PartitionKey) : List Assignment :=
  (self.acks.flatMap Ack.assignments).filter fun a => decide (a.key = key)

end Shard

def Request.Counted : Request → Prop
  | .commit _ spans _ => ∀ span ∈ spans, span.recordCount ≠ 0
  | _ => True

/-- The references some assignments of one object promise for one partition. -/
def promised (object : ObjectKey) (assignments : List Assignment) (key : PartitionKey) :
    List ObjectRef :=
  (assignments.filter fun a => decide (a.key = key)).map fun a =>
    ⟨object, a.baseOffset, a.recordCount⟩

/-- An acknowledgement names its commit's spans in order, and the index places
each of them where it says when it folds the log from version zero. -/
structure Ack.Placed (ack : Ack) (log : List MetadataEntry) : Prop where
  answers : ∃ spans writtenAt, ack.entry.record = .batchCommitted ack.object spans writtenAt ∧
    ack.assignments.map (fun a => (a.key, a.recordCount)) =
      spans.map fun span => (span.key, span.recordCount)
  placed : ∃ before after s t, log = before ++ ack.entry :: after ∧
    IndexState.new.apply before = .ok s ∧ IndexState.new.apply (before ++ [ack.entry]) = .ok t ∧
      ∀ key, t.refsOf key = s.refsOf key ++ promised ack.object ack.assignments key

/-- What the allocator promised and what the index holds are the same offsets. -/
structure Shard.Agrees (s : Shard) : Prop where
  folded : IndexState.new.apply s.log = .ok s.index
  placed : ∀ ack ∈ s.acks, ack.Placed s.log
  ends : ∀ key, (s.allocator.endOffset key).getD 0 = s.index.endOffset key
  disjoint : ∀ key, (s.acked key).Pairwise fun a b => a.stop ≤ b.baseOffset
  tiles : ∀ key, Tiles Assignment.baseOffset Assignment.stop (s.acked key) 0 (s.index.endOffset key)

theorem Ack.Placed.snoc {ack : Ack} {log : List MetadataEntry} (h : ack.Placed log)
    (entry : MetadataEntry) : ack.Placed (log ++ [entry]) := by
  obtain ⟨before, after, s, t, rfl, rest⟩ := h.placed
  exact ⟨h.answers, before, after ++ [entry], s, t, by simp, rest⟩

namespace Allocator

/-- The allocator's loop and the index's loop over the same spans, side by side. -/
structure InStep (object : ObjectKey) (acc : Staging) (staged : StagedSpans) : Prop where
  touched : ∀ key, acc.running.lookup key = (staged.lookup key).map StagedSpan.stop
  refs : ∀ key, IndexState.stagedRefs staged key = promised object acc.assignments key

theorem InStep.empty (object : ObjectKey) : InStep object {} ∅ where
  touched := fun _ => rfl
  refs := fun _ => rfl

section
variable {a : Allocator} {s : IndexState} {object : ObjectKey}

theorem InStep.runningEnd_eq {acc : Staging} {staged : StagedSpans}
    (ends : ∀ key, (a.endOffset key).getD 0 = s.endOffset key)
    (inStep : InStep object acc staged) (key : PartitionKey) :
    a.runningEnd acc key = s.stagedEnd staged key := by
  unfold runningEnd IndexState.stagedEnd
  rw [inStep.touched key]
  cases staged.lookup key with
  | none => exact ends key
  | some span => rfl

theorem InStep.stageSpan {acc acc' : Staging} {staged : StagedSpans} {when : TimeSpan}
    {span : CommittedSpan} (ends : ∀ key, (a.endOffset key).getD 0 = s.endOffset key)
    (inStep : InStep object acc staged) (nonzero : span.recordCount ≠ 0)
    (h : a.stageSpan acc span = .ok acc') :
    ∃ staged', s.stageSpan staged object when span = .ok staged' ∧ InStep object acc' staged' := by
  obtain ⟨fits, rfl⟩ := stageSpan_eq_ok.mp h
  rw [inStep.runningEnd_eq ends] at fits ⊢
  refine ⟨_, IndexState.stageSpan_eq_ok.mpr ⟨nonzero, fits, rfl⟩, ?_, ?_⟩
  · intro key
    rw [Table.alist_lookup_insert_eq, Table.alist_lookup_insert_eq]
    split
    · rfl
    · exact inStep.touched key
  · intro key
    have before := inStep.refs key
    unfold IndexState.stagedRefs promised at before ⊢
    rw [Table.alist_lookup_insert_eq, List.filter_append, List.map_append, ← before]
    by_cases same : key = span.key
    · subst same
      simp [IndexState.extend]
    · simp [same, Ne.symm same]

theorem InStep.stage {spans : List CommittedSpan} {acc : Staging} (when : TimeSpan)
    (ends : ∀ key, (a.endOffset key).getD 0 = s.endOffset key)
    (counted : ∀ span ∈ spans, span.recordCount ≠ 0) (h : spans.foldlM a.stageSpan {} = .ok acc) :
    ∃ staged, spans.foldlM (fun staged span => s.stageSpan staged object when span) ∅ = .ok staged ∧
      InStep object acc staged := by
  refine foldlM_simulation (InStep object) ?_ (InStep.empty object) h
  exact fun _ _ span hspan _ inStep hstep => inStep.stageSpan ends (counted span hspan) hstep

end

theorem endOffset_apply (a : Allocator) (staged : Staged)
    (running : AList fun _ : PartitionKey => Nat)
    (hends : staged.ends = running.entries.map fun e => (e.1, e.2)) (key : PartitionKey) :
    (a.apply staged).1.endOffset key = (running.lookup key).elim (a.endOffset key) some := by
  unfold endOffset apply
  dsimp only
  rw [hends, List.foldl_map]
  exact Table.lookup_foldl id (fun ends (e : Sigma fun _ : PartitionKey => Nat) =>
    ends.insert e.1 e.2) (fun _ stop _ => some stop)
    (fun ends e k => Table.lookup_insert_eq ends e.1 k e.2)
    running.entries running.nodupKeys a.endOffsets key

end Allocator

namespace Shard

/-- What every step keeps; `Agrees` is read off it. -/
structure Inv (s : Shard) : Prop where
  sound : s.index.Sound
  unbounded : s.index.quota = none
  fold : s.log.foldlM IndexState.advance IndexState.new = .ok s.index
  above : IndexState.Above s.index.appliedUpto s.allocator.nextVersion
  placed : ∀ ack ∈ s.acks, ack.Placed s.log
  ends : ∀ key, (s.allocator.endOffset key).getD 0 = s.index.endOffset key
  tiles : ∀ key, Tiles Assignment.baseOffset Assignment.stop (s.acked key) 0 (s.index.endOffset key)

theorem Inv.initial : Inv {} where
  sound := IndexState.Sound.empty none
  unbounded := rfl
  fold := rfl
  above := by intro prev h; cases h
  placed := by simp
  ends := fun _ => rfl
  tiles := fun _ => rfl

theorem Inv.agrees {s : Shard} (inv : s.Inv) : s.Agrees where
  folded := (IndexState.Sound.new.page_agrees rfl s.log _).mpr inv.fold
  placed := inv.placed
  ends := inv.ends
  disjoint := fun key => (inv.tiles key).pairwise
  tiles := inv.tiles

/-- Both folds took one more entry, and agree on what it did. -/
theorem Inv.extend {s : Shard} (inv : s.Inv) {entry : MetadataEntry} {allocator : Allocator}
    {index : IndexState} {acks : List Ack} (happly : s.index.apply [entry] = .ok index)
    (hversion : entry.version < allocator.nextVersion)
    (hends : ∀ key, (allocator.endOffset key).getD 0 = index.endOffset key)
    (hplaced : ∀ ack ∈ acks, ack.Placed (s.log ++ [entry]))
    (htiles : ∀ key, Tiles Assignment.baseOffset Assignment.stop
      ((acks.flatMap Ack.assignments).filter fun a => decide (a.key = key))
      (s.index.endOffset key) (index.endOffset key)) :
    Inv ⟨allocator, index, s.log ++ [entry], s.acks ++ acks⟩ where
  sound := inv.sound.apply happly
  unbounded := (IndexState.quota_apply happly).trans inv.unbounded
  fold := by
    rw [foldlM_snoc, inv.fold, bind_ok]
    exact (IndexState.apply_entry_eq_ok inv.unbounded).mp happly
  above := by
    intro prev hprev
    rw [(IndexState.apply_entry_version happly).2] at hprev
    cases hprev
    exact hversion
  placed := by
    intro ack hack
    rcases List.mem_append.mp hack with h | h
    · exact (inv.placed ack h).snoc entry
    · exact hplaced ack h
  ends := hends
  tiles := by
    intro key
    unfold acked
    rw [List.flatMap_append, List.filter_append]
    exact (inv.tiles key).append (htiles key)

theorem Inv.extend_other {s : Shard} (inv : s.Inv) {entry : MetadataEntry} {allocator : Allocator}
    {index : IndexState} (happly : s.index.apply [entry] = .ok index)
    (kind : IndexState.spansOf entry.record = []) (hversion : entry.version < allocator.nextVersion)
    (same : allocator.endOffsets = s.allocator.endOffsets) :
    Inv ⟨allocator, index, s.log ++ [entry], s.acks⟩ := by
  have stays := IndexState.apply_other happly kind
  have extended := @Inv.extend s inv entry allocator index [] happly hversion
    (fun key => by unfold Allocator.endOffset; rw [same, stays key]; exact inv.ends key)
    (by simp) (fun key => (stays key).symm)
  rwa [List.append_nil] at extended

theorem Inv.commit {s : Shard} (inv : s.Inv) {object : ObjectKey} {spans : List CommittedSpan}
    {writtenAt : Nat} {staged : Allocator.Staged}
    (counted : ∀ span ∈ spans, span.recordCount ≠ 0)
    (h : s.allocator.stage object spans writtenAt = .ok staged) :
    ∃ s', s.take staged [⟨object, staged.entry, staged.assignments⟩] = .ok s' ∧ s'.Inv := by
  obtain ⟨acc, hacc, -, rfl⟩ := Allocator.stage_eq_ok.mp h
  obtain ⟨table, htable, inStep⟩ :=
    @Allocator.InStep.stage _ _ object _ _ (TimeSpan.at_ writtenAt) inv.ends counted hacc
  have hstaged : s.index.stageAll ∅ (IndexState.spansOf
      (.batchCommitted object spans writtenAt)) = .ok table := by
    unfold IndexState.stageAll IndexState.spansOf
    rw [List.foldlM_map]
    exact htable
  have continuous := (IndexState.Continuous.empty s.index).stageAll hstaged
  obtain ⟨index, happly, hkeys⟩ := @IndexState.apply_commit s.index
    ⟨s.allocator.nextVersion, .batchCommitted object spans writtenAt⟩ inv.unbounded
    inv.above table rfl hstaged
  refine ⟨_, bind_eq_ok.mpr ⟨index, happly, rfl⟩, inv.extend happly ?_ ?_ ?_ ?_⟩
  · exact Nat.lt_succ_self _
  · intro key
    rw [Allocator.endOffset_apply _ _ acc.running rfl, (hkeys key).1,
      ← inStep.runningEnd_eq inv.ends]
    unfold Allocator.runningEnd
    cases acc.running.lookup key <;> rfl
  · intro ack hack
    rw [List.mem_singleton] at hack
    subst hack
    have page := IndexState.Sound.new.page_agrees rfl
    refine ⟨⟨spans, writtenAt, rfl, Allocator.stage_positional hacc⟩,
      s.log, [], s.index, index, rfl, (page s.log _).mpr inv.fold, (page _ _).mpr ?_, ?_⟩
    · rw [foldlM_snoc, inv.fold, bind_ok]
      exact (IndexState.apply_entry_eq_ok inv.unbounded).mp happly
    · intro key
      rw [(hkeys key).2, inStep.refs]
  · intro key
    have refs := inStep.refs key
    rw [(hkeys key).1]
    simp only [List.flatMap_cons, List.flatMap_nil, List.append_nil]
    have tiled : RefTiles (IndexState.stagedRefs table key) (s.index.endOffset key)
        (s.index.stagedEnd table key) := by
      unfold IndexState.stagedRefs IndexState.stagedEnd
      cases held : table.lookup key with
      | none => rfl
      | some span => exact (continuous key span held).tiles
    rw [refs] at tiled
    exact Tiles.map_iff.mp tiled

theorem Inv.record {s : Shard} (inv : s.Inv) {record : MetadataRecord} {staged : Allocator.Staged}
    (kind : IndexState.spansOf record = []) (h : s.allocator.stageRecord record = .ok staged)
    (accepted : ∃ index, s.index.apply [⟨s.allocator.nextVersion, record⟩] = .ok index) :
    ∃ s', s.take staged [] = .ok s' ∧ s'.Inv := by
  obtain ⟨-, rfl⟩ := Allocator.stageRecord_eq_ok.mp h
  obtain ⟨index, happly⟩ := accepted
  refine ⟨_, bind_eq_ok.mpr ⟨index, happly, rfl⟩, ?_⟩
  rw [List.append_nil]
  exact inv.extend_other happly kind (Nat.lt_succ_self _) rfl

theorem Inv.settle {s : Shard} (inv : s.Inv) (journaled : Bool)
    {staged : Except Error Allocator.Staged} {acks : Allocator.Staged → List Ack}
    (taken : ∀ x, staged = .ok x → ∃ s', s.take x (acks x) = .ok s' ∧ s'.Inv) :
    ∃ s', s.settle journaled staged acks = .ok s' ∧ s'.Inv := by
  cases staged with
  | error e => exact ⟨s, rfl, inv⟩
  | ok x =>
    cases journaled with
    | false => exact ⟨s, rfl, inv⟩
    | true => exact taken x rfl

theorem Inv.meet {s : Shard} (inv : s.Inv) (journaled : Bool) {entry : MetadataEntry}
    (kind : ∀ object spans writtenAt, entry.record ≠ .batchCommitted object spans writtenAt) :
    ∃ s', s.meet journaled entry = .ok s' ∧ s'.Inv := by
  unfold Shard.meet
  split
  · rename_i allocator index hreplay happly
    cases journaled with
    | false => exact ⟨s, rfl, inv⟩
    | true =>
      obtain ⟨-, -, rfl⟩ := (Allocator.replay_other kind).mp hreplay
      refine ⟨_, rfl, inv.extend_other happly ?_ (Nat.lt_succ_self _) rfl⟩
      cases hrecord : entry.record with
      | batchCommitted object spans writtenAt => exact absurd hrecord (kind _ _ _)
      | _ => rfl
  · exact ⟨s, rfl, inv⟩

theorem Inv.step {s : Shard} (inv : s.Inv) (request : Request × Bool)
    (counted : request.1.Counted) : ∃ s', s.step request = .ok s' ∧ s'.Inv := by
  obtain ⟨request, journaled⟩ := request
  cases request with
  | commit object spans writtenAt => exact inv.settle journaled fun _ h => inv.commit counted h
  | trim topic partition start =>
    refine inv.settle journaled fun staged h => ?_
    obtain ⟨inside, hrecord⟩ := Allocator.stageTrim_eq_ok.mp h
    rw [inv.ends] at inside
    exact inv.record rfl hrecord (IndexState.apply_trim inv.unbounded inv.above inside)
  | retention topic retentionMs =>
    refine inv.settle journaled fun staged h => ?_
    exact inv.record rfl h (IndexState.apply_neutral inv.unbounded inv.above rfl rfl)
  | compaction version topic partition retiring installing =>
    exact inv.meet journaled (by simp)
  | publication version topic partition manifest upto => exact inv.meet journaled (by simp)
  | epochChange version epoch => exact inv.meet journaled (by simp)

/-- Every run is served to its end, and allocator and index agree after it. -/
theorem run_agrees (requests : List (Request × Bool)) (counted : ∀ r ∈ requests, r.1.Counted) :
    ∃ s, run requests = .ok s ∧ s.Agrees := by
  have whole : ∀ s : Shard, s.Inv → ∃ s', requests.foldlM Shard.step s = .ok s' ∧ s'.Inv := by
    induction requests with
    | nil => exact fun s inv => ⟨s, rfl, inv⟩
    | cons request rest ih =>
      intro s inv
      obtain ⟨mid, hmid, midInv⟩ := inv.step request (counted request (List.mem_cons_self ..))
      obtain ⟨s', hs', inv'⟩ := ih (fun r hr => counted r (List.mem_cons_of_mem _ hr)) mid midInv
      exact ⟨s', by rw [List.foldlM_cons, hmid, bind_ok, hs'], inv'⟩
  obtain ⟨s, hs, inv⟩ := whole {} Inv.initial
  exact ⟨s, hs, inv.agrees⟩

/-- A commit of two spans of one partition, one the journal refuses, and a trim. -/
def refusedOnce : List (Request × Bool) :=
  [(.commit ⟨"a"⟩ [⟨⟨"t"⟩, 0, 2, .full, none⟩, ⟨⟨"t"⟩, 0, 3, .full, none⟩] 5, true),
    (.commit ⟨"b"⟩ [⟨⟨"t"⟩, 0, 4, .full, none⟩] 6, false), (.trim ⟨"t"⟩ 0 2, true),
    (.commit ⟨"b"⟩ [⟨⟨"t"⟩, 0, 4, .full, none⟩] 7, true)]

theorem run_agrees_refusedOnce :
    ∃ s, run refusedOnce = .ok s ∧ s.Agrees ∧ s.index.endOffset (⟨"t"⟩, 0) = 9 := by
  have counted : ∀ r ∈ refusedOnce, r.1.Counted := by
    simp [refusedOnce, Request.Counted]
  obtain ⟨s, hs, agrees⟩ := run_agrees refusedOnce counted
  have ended : (run refusedOnce).map (fun s => s.index.endOffset (⟨"t"⟩, 0)) = .ok 9 := by rfl
  rw [hs] at ended
  exact ⟨s, hs, agrees, Except.ok.inj ended⟩

end Shard

end Oqueue
