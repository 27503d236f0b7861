import Oqueue.Index.Liveness

/-!
# A page read in two passes is one interleaved loop

`apply` first reads every entry and only then runs the effects, each against as
much of the page as came before it. Here the two passes are shown to be one
loop that treats each entry as it is met, and what that loop holds is described
partition by partition.
-/

namespace Oqueue

open Checked Tiling PartitionIndex

namespace IndexState

/-- Where the next span of a partition would begin, staged or not. -/
def stagedEnd (s : IndexState) (staged : StagedSpans) (key : PartitionKey) : Nat :=
  (staged.lookup key).elim (s.endOffset key) StagedSpan.stop

/-- One more entry on top of what a batch has staged for a partition. -/
def extend (held : Option StagedSpan) (stop : Nat) (entry : TailEntry) (when : TimeSpan) :
    StagedSpan :=
  ⟨stop, (held.elim [] StagedSpan.entries) ++ [entry],
    (held.elim when StagedSpan.when).widened when⟩

theorem stageSpan_eq_ok {s : IndexState} {staged staged' : StagedSpans} {object : ObjectKey}
    {when : TimeSpan} {span : CommittedSpan} :
    s.stageSpan staged object when span = .ok staged' ↔
      span.recordCount ≠ 0 ∧ s.stagedEnd staged span.key + span.recordCount ≤ i64Max ∧
        staged' = staged.insert span.key (extend (staged.lookup span.key)
          (s.stagedEnd staged span.key + span.recordCount)
          ⟨⟨object, s.stagedEnd staged span.key, span.recordCount⟩, span.bytes⟩ when) := by
  unfold stageSpan
  by_cases empty : span.recordCount = 0
  · simp [empty, throw, throwThe, MonadExceptOf.throw]
  · have slot : ∀ base, ((staged.lookup span.key).getD ⟨base, [], when⟩).entries =
        (staged.lookup span.key).elim [] StagedSpan.entries ∧
        ((staged.lookup span.key).getD ⟨base, [], when⟩).when =
          (staged.lookup span.key).elim when StagedSpan.when := by
      intro base
      cases staged.lookup span.key <;> exact ⟨rfl, rfl⟩
    simp only [if_neg empty, bind_eq_ok, Offset.add_eq_ok, (slot _).1, (slot _).2]
    constructor
    · rintro ⟨_, ⟨rfl, fits⟩, h⟩
      cases h
      exact ⟨empty, fits, rfl⟩
    · rintro ⟨-, fits, rfl⟩
      exact ⟨_, ⟨rfl, fits⟩, rfl⟩

/-- Every partition's staged entries continue it from its committed end. -/
def Continuous (s : IndexState) (staged : StagedSpans) : Prop :=
  ∀ key span, staged.lookup key = some span → span.Continues (s.endOffset key)

theorem Continuous.empty (s : IndexState) : s.Continuous ∅ := by
  intro key span h
  simp at h

theorem Continuous.stageSpan {s : IndexState} {staged staged' : StagedSpans} {object : ObjectKey}
    {when : TimeSpan} {span : CommittedSpan} (continuous : s.Continuous staged)
    (h : s.stageSpan staged object when span = .ok staged') : s.Continuous staged' := by
  obtain ⟨nonzero, fits, rfl⟩ := stageSpan_eq_ok.mp h
  intro key span' hlookup
  rw [Table.alist_lookup_insert_eq] at hlookup
  split at hlookup
  · rename_i same
    subst same
    cases hlookup
    have block : RefTiles [(⟨object, s.stagedEnd staged span.key, span.recordCount⟩ : ObjectRef)]
        (s.stagedEnd staged span.key) (s.stagedEnd staged span.key + span.recordCount) :=
      Tiles.singleton (show s.stagedEnd staged span.key <
        s.stagedEnd staged span.key + span.recordCount by omega)
    refine ⟨by simp [extend], ?_, fits⟩
    unfold extend stagedEnd at *
    cases held : staged.lookup span.key with
    | none => simpa [held] using block
    | some before =>
      simp only [held, Option.elim_some, List.map_append, List.map_singleton] at block ⊢
      exact (continuous _ _ held).tiles.append block
  · exact continuous key span' hlookup

/-- Staging only ever adds to the entries a partition has staged. -/
def Extends (staged staged' : StagedSpans) : Prop :=
  ∀ key, ∃ more, ((staged'.lookup key).elim [] StagedSpan.entries) =
    ((staged.lookup key).elim [] StagedSpan.entries) ++ more

theorem Extends.stageSpan {s : IndexState} {start staged staged' : StagedSpans}
    {object : ObjectKey} {when : TimeSpan} {span : CommittedSpan} (grown : Extends start staged)
    (h : s.stageSpan staged object when span = .ok staged') : Extends start staged' := by
  obtain ⟨-, -, rfl⟩ := stageSpan_eq_ok.mp h
  intro key
  obtain ⟨more, hmore⟩ := grown key
  rw [Table.alist_lookup_insert_eq]
  split
  · rename_i same
    subst same
    exact ⟨more ++ [_], by rw [Option.elim_some, ← List.append_assoc, ← hmore]; rfl⟩
  · exact ⟨more, hmore⟩

theorem precedes_eq (staged : StagedSpans) (key : PartitionKey) :
    precedes staged key = ((staged.lookup key).elim [] StagedSpan.entries).length := by
  unfold precedes
  cases staged.lookup key <;> rfl

theorem Extends.precedes_le {staged staged' : StagedSpans} (h : Extends staged staged')
    (key : PartitionKey) : precedes staged key ≤ precedes staged' key := by
  obtain ⟨more, hmore⟩ := h key
  rw [precedes_eq, precedes_eq, hmore, List.length_append]
  omega

theorem Extends.catchUp_eq {staged staged' : StagedSpans} (h : Extends staged staged')
    {key : PartitionKey} {upto : Nat} (bound : upto ≤ precedes staged key) (slot : PartitionIndex)
    (already : Nat) :
    catchUp slot (staged'.lookup key) already upto = catchUp slot (staged.lookup key) already upto := by
  obtain ⟨more, hmore⟩ := h key
  have whole : ∀ st : StagedSpans, precedes st key ≥ upto →
      catchUp slot (st.lookup key) already upto = (do
        let slot ← pushEntries slot
          ((((st.lookup key).elim [] StagedSpan.entries).take upto).drop already)
        return (slot, max already upto)) := by
    intro st hst
    cases held : st.lookup key with
    | some span => rfl
    | none =>
      simp only [precedes, held, Option.elim_none] at hst
      obtain rfl : upto = 0 := by omega
      simp [catchUp, pushEntries]
  rw [whole staged' (le_trans bound (h.precedes_le key)), whole staged bound, hmore,
    List.take_append_of_le_length (by rw [← precedes_eq]; exact bound)]

/-- What the one loop holds between two entries. -/
structure Scratch where
  previous : Option Nat
  staged : StagedSpans := ∅
  proj : Projection := {}

def Above (previous : Option Nat) (version : Nat) : Prop :=
  ∀ prev, previous = some prev → prev < version

theorem readEntry_eq_ok {s : IndexState} {previous previous' : Option Nat} {batch batch' : Batch}
    {entry : MetadataEntry} :
    s.readEntry (previous, batch) entry = .ok (previous', batch') ↔
      Above previous entry.version ∧ previous' = some entry.version ∧
        s.readRecord batch entry.record = .ok batch' := by
  unfold readEntry Above
  have tail : (do
      let batch ← s.readRecord batch entry.record
      return (some entry.version, batch) : Except Error (Option Nat × Batch)) =
        .ok (previous', batch') ↔
      previous' = some entry.version ∧ s.readRecord batch entry.record = .ok batch' := by
    rw [bind_eq_ok]
    constructor
    · rintro ⟨_, hread, h⟩
      cases h
      exact ⟨rfl, hread⟩
    · rintro ⟨rfl, hread⟩
      exact ⟨_, hread, rfl⟩
  cases previous with
  | none => simpa using tail
  | some prev =>
    by_cases stale : entry.version ≤ prev
    · simp only [if_pos stale, Option.some.injEq, forall_eq']
      simp [throw, throwThe, MonadExceptOf.throw, Nat.not_lt.mpr stale]
    · simp only [if_neg stale, Option.some.injEq, forall_eq', Nat.not_le.mp stale, true_and]
      exact tail

def effectOf : MetadataRecord → Option (PartitionKey × Effect)
  | .manifestPublished topic partition manifest upto =>
    some ((topic, partition), .published manifest upto)
  | .rangeCompacted topic partition retiring installing =>
    some ((topic, partition), .swapped retiring installing)
  | .trimmed topic partition start => some ((topic, partition), .trimmed start)
  | _ => none

/-- The spans a record commits, with the object holding them and when. -/
def spansOf : MetadataRecord → List (ObjectKey × TimeSpan × CommittedSpan)
  | .batchCommitted object spans writtenAt =>
    spans.map fun span => (object, TimeSpan.at_ writtenAt, span)
  | _ => []

def stageAll (s : IndexState) (staged : StagedSpans)
    (spans : List (ObjectKey × TimeSpan × CommittedSpan)) : Except Error StagedSpans :=
  spans.foldlM (fun staged item => s.stageSpan staged item.1 item.2.1 item.2.2) staged

theorem readRecord_eq_ok {s : IndexState} {batch batch' : Batch} {record : MetadataRecord} :
    s.readRecord batch record = .ok batch' ↔
      s.stageAll batch.staged (spansOf record) = .ok batch'.staged ∧
        batch'.effects = batch.effects ++ (effectOf record).elim [] fun effect =>
          [⟨effect.1, effect.2, precedes batch'.staged effect.1⟩] := by
  have onlyEffect : ∀ key effect, (Except.ok (batch.stageEffect key effect) : Except Error Batch) =
      .ok batch' ↔ (Except.ok batch.staged : Except Error StagedSpans) = .ok batch'.staged ∧
        batch'.effects = batch.effects ++ [⟨key, effect, precedes batch'.staged key⟩] := by
    intro key effect
    constructor
    · intro h
      cases h
      exact ⟨rfl, rfl⟩
    · rintro ⟨hstaged, heffects⟩
      obtain ⟨effects, staged⟩ := batch'
      cases hstaged
      dsimp only at heffects
      subst heffects
      rfl
  have neither : (Except.ok batch : Except Error Batch) = .ok batch' ↔
      (Except.ok batch.staged : Except Error StagedSpans) = .ok batch'.staged ∧
        batch'.effects = batch.effects ++ [] := by
    rw [List.append_nil]
    constructor
    · intro h
      cases h
      exact ⟨rfl, rfl⟩
    · rintro ⟨hstaged, heffects⟩
      obtain ⟨effects, staged⟩ := batch'
      cases hstaged
      cases heffects
      rfl
  cases record with
  | batchCommitted object spans writtenAt =>
    simp only [readRecord, stageAll, spansOf, effectOf, List.foldlM_map, Option.elim_none,
      bind_eq_ok, List.append_nil]
    constructor
    · rintro ⟨staged, hstaged, h⟩
      cases h
      exact ⟨hstaged, rfl⟩
    · rintro ⟨hstaged, heffects⟩
      refine ⟨_, hstaged, ?_⟩
      rw [← heffects]
      rfl
  | manifestPublished topic partition manifest upto => exact onlyEffect _ _
  | rangeCompacted topic partition retiring installing => exact onlyEffect _ _
  | trimmed topic partition start => exact onlyEffect _ _
  | epochChanged epoch => exact neither
  | topicRetentionChanged topic retentionMs => exact neither

/-- One entry of the interleaved loop. -/
def Scratch.step (s : IndexState) (σ : Scratch) (entry : MetadataEntry) : Except Error Scratch := do
  if σ.previous.any fun prev => decide (entry.version ≤ prev) then
    throw (.nonMonotonicCommitVersion (σ.previous.getD 0) entry.version)
  let staged ← s.stageAll σ.staged (spansOf entry.record)
  let proj ← (effectOf entry.record).elim (.ok σ.proj) fun effect =>
    s.projectEffect staged σ.proj ⟨effect.1, effect.2, precedes staged effect.1⟩
  return ⟨some entry.version, staged, proj⟩

theorem Scratch.step_eq_ok {s : IndexState} {σ σ' : Scratch} {entry : MetadataEntry} :
    σ.step s entry = .ok σ' ↔
      Above σ.previous entry.version ∧ σ'.previous = some entry.version ∧
        s.stageAll σ.staged (spansOf entry.record) = .ok σ'.staged ∧
        (effectOf entry.record).elim (.ok σ.proj) (fun effect => s.projectEffect σ'.staged σ.proj
          ⟨effect.1, effect.2, precedes σ'.staged effect.1⟩) = .ok σ'.proj := by
  have fresh : Above σ.previous entry.version ↔
      ¬(σ.previous.any fun prev => decide (entry.version ≤ prev)) = true := by
    unfold Above
    cases σ.previous <;> simp
  unfold step
  by_cases stale : (σ.previous.any fun prev => decide (entry.version ≤ prev)) = true
  · rw [if_pos stale]
    simp [throw, throwThe, MonadExceptOf.throw, fresh, stale]
  · rw [if_neg stale]
    simp only [bind_eq_ok]
    constructor
    · rintro ⟨staged, hstaged, proj, hproj, h⟩
      cases h
      exact ⟨fresh.mpr stale, rfl, hstaged, hproj⟩
    · rintro ⟨-, hprev, hstaged, hproj⟩
      refine ⟨_, hstaged, _, hproj, ?_⟩
      rw [← hprev]
      rfl

def scratchInit (s : IndexState) : Scratch := { previous := s.appliedUpto }

theorem extends_stageAll {s : IndexState} {staged staged' : StagedSpans}
    {spans : List (ObjectKey × TimeSpan × CommittedSpan)}
    (h : s.stageAll staged spans = .ok staged') : Extends staged staged' :=
  foldlM_invariant (Extends staged) (fun _ _ _ _ grown hstep => grown.stageSpan hstep)
    (fun _ => ⟨[], (List.append_nil _).symm⟩) h

theorem Continuous.stageAll {s : IndexState} {staged staged' : StagedSpans}
    {spans : List (ObjectKey × TimeSpan × CommittedSpan)} (continuous : s.Continuous staged)
    (h : s.stageAll staged spans = .ok staged') : s.Continuous staged' :=
  foldlM_invariant s.Continuous (fun _ _ _ _ held hstep => held.stageSpan hstep) continuous h

/-- The effects read so far were staged after commits that are still there. -/
def Bounded (batch : Batch) : Prop :=
  ∀ x ∈ batch.effects, x.precedes ≤ precedes batch.staged x.key

theorem Bounded.readRecord {s : IndexState} {batch batch' : Batch} {record : MetadataRecord}
    (bounded : Bounded batch) (h : s.readRecord batch record = .ok batch') : Bounded batch' := by
  obtain ⟨hstaged, heffects⟩ := readRecord_eq_ok.mp h
  intro x hx
  rw [heffects, List.mem_append] at hx
  rcases hx with hx | hx
  · exact le_trans (bounded x hx) ((extends_stageAll hstaged).precedes_le x.key)
  · cases heffect : effectOf record with
    | none => simp [heffect] at hx
    | some effect =>
      simp only [heffect, Option.elim_some, List.mem_singleton] at hx
      subst hx
      exact Nat.le_refl _

theorem read_bounded {s : IndexState} {entries : List MetadataEntry} {previous : Option Nat}
    {batch : Batch}
    (h : entries.foldlM s.readEntry (s.appliedUpto, {}) = .ok (previous, batch)) :
    Bounded batch := by
  refine foldlM_invariant (fun scratch : Option Nat × Batch => Bounded scratch.2) ?_
    (by intro x hx; simp at hx) h
  rintro ⟨prev, before⟩ entry - ⟨prev', after⟩ bounded hentry
  exact bounded.readRecord (readEntry_eq_ok.mp hentry).2.2

theorem projectLoop_eq (s : IndexState) {effects : List Staged} {staged staged' : StagedSpans}
    (grown : Extends staged staged')
    (bounded : ∀ x ∈ effects, x.precedes ≤ precedes staged x.key) (proj : Projection) :
    effects.foldlM (s.projectEffect staged') proj = effects.foldlM (s.projectEffect staged) proj := by
  apply foldlM_congr
  intro proj x hx
  simp only [projectEffect, grown.catchUp_eq (bounded x hx)]

/-- One more record: the effects before it run as they did, then its own. -/
theorem projectLoop_snoc {s : IndexState} {batch batch' : Batch} {record : MetadataRecord}
    (bounded : Bounded batch) (h : s.readRecord batch record = .ok batch') :
    batch'.effects.foldlM (s.projectEffect batch'.staged) {} =
      batch.effects.foldlM (s.projectEffect batch.staged) {} >>= fun proj =>
        (effectOf record).elim (.ok proj) fun effect => s.projectEffect batch'.staged proj
          ⟨effect.1, effect.2, precedes batch'.staged effect.1⟩ := by
  obtain ⟨hstaged, heffects⟩ := readRecord_eq_ok.mp h
  have same := projectLoop_eq s (extends_stageAll hstaged) bounded {}
  rw [heffects, List.foldlM_append, same]
  congr 1
  funext proj
  cases effectOf record with
  | none => rfl
  | some effect => simp

/-- Reading a page and then running its effects is the interleaved loop. -/
theorem twoPass_iff (s : IndexState) (entries : List MetadataEntry) (σ : Scratch) :
    (∃ batch, entries.foldlM s.readEntry (s.appliedUpto, {}) = .ok (σ.previous, batch) ∧
      batch.staged = σ.staged ∧
      batch.effects.foldlM (s.projectEffect batch.staged) {} = .ok σ.proj) ↔
    entries.foldlM (Scratch.step s) s.scratchInit = .ok σ := by
  induction entries using List.reverseRecOn generalizing σ with
  | nil =>
    obtain ⟨previous, staged, proj⟩ := σ
    constructor
    · rintro ⟨batch, hread, rfl, hproj⟩
      cases hread
      cases hproj
      rfl
    · intro h
      cases h
      exact ⟨{}, rfl, rfl, rfl⟩
  | append_singleton before entry ih =>
    simp only [foldlM_snoc, bind_eq_ok]
    constructor
    · rintro ⟨batch', ⟨⟨previous, batch⟩, hbefore, hentry⟩, hstaged, hproj⟩
      obtain ⟨above, hprevious, hrecord⟩ := readEntry_eq_ok.mp hentry
      rw [projectLoop_snoc (read_bounded hbefore) hrecord, bind_eq_ok] at hproj
      obtain ⟨proj, hloop, hlast⟩ := hproj
      refine ⟨⟨previous, batch.staged, proj⟩, (ih _).mp ⟨batch, hbefore, rfl, hloop⟩, ?_⟩
      rw [hstaged] at hlast
      rw [Scratch.step_eq_ok, ← hstaged]
      exact ⟨above, hprevious, (readRecord_eq_ok.mp hrecord).1, hstaged ▸ hlast⟩
    · rintro ⟨mid, hmid, hstep⟩
      obtain ⟨batch, hbefore, hstaged, hloop⟩ := (ih mid).mpr hmid
      obtain ⟨above, hprevious, hspans, hlast⟩ := Scratch.step_eq_ok.mp hstep
      have hrecord : s.readRecord batch entry.record = .ok
          ⟨batch.effects ++ (effectOf entry.record).elim [] fun effect =>
            [⟨effect.1, effect.2, precedes σ.staged effect.1⟩], σ.staged⟩ :=
        readRecord_eq_ok.mpr ⟨by rw [hstaged]; exact hspans, rfl⟩
      refine ⟨_, ⟨_, hbefore, readEntry_eq_ok.mpr ⟨above, hprevious, hrecord⟩⟩, rfl, ?_⟩
      rw [projectLoop_snoc (read_bounded hbefore) hrecord, hloop, bind_ok]
      exact hlast

end IndexState

end Oqueue
