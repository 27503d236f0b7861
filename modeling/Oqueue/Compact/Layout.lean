import Oqueue.Compact.Planned

/-!
# The inputs a plan is merged from

A plan's inputs are read out of the index by the walk that measured it, one
reference an object: the spans of an object are joined into the reference that one
read of it delivers. A sweep plans a window of each candidate and derives the inputs
of every plan that fits the round.
-/

namespace Oqueue

namespace Compact

open Checked Tiling PartitionIndex

def spanBoth (held reference : ObjectRef) : ObjectRef where
  object := held.object
  baseOffset := min held.baseOffset reference.baseOffset
  recordCount := min (held.recordCount + reference.recordCount) u32Max

theorem object_spanBoth (held reference : ObjectRef) :
    (spanBoth held reference).object = held.object := rfl

/-- Folds one span into the reference for its object, adding it if new. -/
def absorb (inputs : List ObjectRef) (reference : ObjectRef) : List ObjectRef :=
  Grouping.add ObjectRef.object spanBoth inputs reference

/-- One plan and the index references that tile its range. -/
structure PlannedInputs where
  plan : CompactionPlan
  inputs : List ObjectRef
  deriving DecidableEq, Repr

/-- What the walk does with a batch; the first past the range ends the page. -/
def take (plan : CompactionPlan) (inputs : List ObjectRef) (batch : IndexedBatch) :
    Except Error (List ObjectRef × Option Nat) := do
  let objectEnd ← batch.reference.endOffset
  if plan.stop ≤ batch.reference.baseOffset then return (inputs, none)
  else return (absorb inputs batch.reference, some objectEnd)

/-- The walk over a plan's range. A trim can land before it; the refusal says where
the readable log begins, and the walk resumes there. -/
def derivePages (index : IndexState) (plan : CompactionPlan) :
    Nat → Nat → List ObjectRef → Except Error (List ObjectRef)
  | 0, _, inputs => .ok inputs
  | fuel + 1, cursor, inputs =>
    if cursor < plan.stop then
      match index.findBatches plan.key cursor u64Max with
      | .error (.belowLogStart requested logStart) =>
        if cursor < logStart then derivePages index plan fuel logStart inputs
        else .error (.belowLogStart requested logStart)
      | .error other => .error other
      | .ok page => do
        if page.isEmpty then return inputs
        let (inputs, furthest) ← Paged.visitPage (take plan) page inputs cursor
        if furthest ≤ cursor then return inputs
        else derivePages index plan fuel furthest inputs
    else .ok inputs

/-- Reads the references tiling a plan out of the index that produced it. -/
def derive (index : IndexState) (plan : CompactionPlan) : Except Error PlannedInputs := do
  let inputs ← derivePages index plan (plan.stop - plan.start) plan.start []
  return ⟨plan, inputs⟩

/-- A partition to consider, and where compaction has reached in it. -/
structure Candidate where
  topic : TopicId
  partition : Nat
  from_ : Nat
  deriving DecidableEq, Repr

/-- One round's worth of work, and what did not fit in it. -/
structure Sweep where
  round : List PlannedInputs := []
  heldOver : List PartitionKey := []
  deriving DecidableEq, Repr

/-- What a sweep carries from one candidate to the next. -/
structure Sweeping where
  swept : Sweep := {}
  budget : Nat := compactionPlanRecordsBudget
  seen : List PartitionKey := []

/-- The window of a candidate: a budget's width, up to the partition's end. -/
def windowEnd (index : IndexState) (candidate : Candidate) : Nat :=
  let stop := index.endOffset (candidate.topic, candidate.partition)
  match Offset.add candidate.from_ compactionPlanRecordsBudget with
  | .ok limit => min limit stop
  | .error _ => stop

def Sweeping.consider (index : IndexState) (self : Sweeping) (candidate : Candidate) :
    Except Error Sweeping := do
  let key := (candidate.topic, candidate.partition)
  if self.seen.contains key then return self
  else
    let self := { self with seen := self.seen ++ [key] }
    match ← plan index candidate.topic candidate.partition candidate.from_
        (windowEnd index candidate) with
    | .notWorthIt => return self
    | .deferred _ =>
      return { self with swept := { self.swept with heldOver := self.swept.heldOver ++ [key] } }
    | .planned planned =>
      if self.budget < planned.cost.recordsRewritten then
        return { self with swept := { self.swept with heldOver := self.swept.heldOver ++ [key] } }
      else
        let derived ← derive index planned
        return { self with
          swept := { self.swept with round := self.swept.round ++ [derived] }
          budget := self.budget - planned.cost.recordsRewritten }

/-- Surveys the candidates and builds one round. -/
def sweep (index : IndexState) (candidates : List Candidate) : Except Error Sweep := do
  return (← candidates.foldlM (Sweeping.consider index) {}).swept

variable {s : IndexState} {p : PartitionIndex} {planned : CompactionPlan}

/-- From the log start on, the walk is one over pages. -/
theorem derivePages_eq (held : s.partition planned.key = some p) (wf : p.WF) {fuel cursor : Nat}
    (started : p.logStart ≤ cursor) (inputs : List ObjectRef) :
    derivePages s planned fuel cursor inputs =
      Paged.walk (fun cursor => s.findBatches planned.key cursor u64Max) (take planned) planned.stop
        fuel cursor inputs := by
  induction fuel generalizing cursor inputs with
  | zero => rfl
  | succ fuel ih =>
    obtain ⟨page, -, hpage, -⟩ := wf.findBatches_spec started u64Max
    rw [← IndexState.findBatches_of_held held] at hpage
    unfold derivePages Paged.walk
    by_cases more : cursor < planned.stop
    · rw [if_pos more, if_pos more, hpage, bind_ok]
      dsimp only
      by_cases empty : page.isEmpty = true
      · rw [if_pos empty, if_pos empty]
      · rw [if_neg empty, if_neg empty]
        cases hvisit : Paged.visitPage (take planned) page inputs cursor with
        | error refusal => rfl
        | ok visited =>
          rw [bind_ok, bind_ok]
          by_cases stays : visited.2 ≤ cursor
          · rw [if_pos stays, if_pos stays]
          · rw [if_neg stays, if_neg stays]
            exact ih (by omega) visited.1
    · rw [if_neg more, if_neg more]

def taking (plan : CompactionPlan) (inputs : List ObjectRef) (batch : IndexedBatch) :
    List ObjectRef :=
  if batch.reference.baseOffset < plan.stop then absorb inputs batch.reference else inputs

theorem take_visits (wf : p.WF) : Paged.Visits (fun _ => True)
    (ObjectRef.baseOffset ∘ IndexedBatch.reference) (ObjectRef.stop ∘ IndexedBatch.reference)
    (take planned) (taking planned) planned.stop p.resident := by
  intro inputs _ batch hbatch
  refine ⟨trivial, ?_⟩
  have stops := wf.endOffset_ok (mem_refs_of_resident hbatch)
  unfold take taking
  rw [stops, bind_ok]
  by_cases begins : batch.reference.baseOffset < planned.stop
  · rw [if_neg (Nat.not_le.mpr begins), if_pos begins, if_pos (by exact begins)]
    rfl
  · rw [if_pos (Nat.le_of_not_lt begins), if_neg begins, if_neg (by exact begins)]
    rfl

theorem foldl_taking {batches : List IndexedBatch}
    (begin : ∀ b ∈ batches, b.reference.baseOffset < planned.stop) (inputs : List ObjectRef) :
    batches.foldl (taking planned) inputs =
      (batches.map IndexedBatch.reference).foldl absorb inputs := by
  rw [List.foldl_map]
  refine List.foldl_ext _ _ _ ?_
  intro inputs batch hbatch
  exact if_pos (begin batch hbatch)

theorem foldl_taking_past {batches : List IndexedBatch}
    (past : ∀ b ∈ batches, planned.stop ≤ b.reference.baseOffset) (inputs : List ObjectRef) :
    batches.foldl (taking planned) inputs = inputs := by
  induction batches with
  | nil => rfl
  | cons batch rest ih =>
    rw [List.foldl_cons]
    have skipped : taking planned inputs batch = inputs :=
      if_neg (Nat.not_lt.mpr (past batch (List.mem_cons_self ..)))
    rw [skipped]
    exact ih fun b hb => past b (List.mem_cons_of_mem _ hb)

theorem PlannedRange.refs_eq (h : PlannedRange p planned) (wf : p.WF) :
    p.refs.filter (fun r => decide (planned.start < r.stop) && decide (r.baseOffset < planned.stop)) =
      within p planned.start planned.stop := by
  obtain ⟨before, after, hsplit⟩ := h.block
  obtain ⟨first, tiles⟩ := wf.tiles
  have some : within p planned.start planned.stop ≠ [] := by
    intro none
    have tiles := h.tiles
    rw [none] at tiles
    exact absurd tiles (Nat.ne_of_lt h.range)
  have whole : p.refs = before ++ within p planned.start planned.stop ++
      (after ++ p.tail.map TailEntry.reference) := by
    unfold refs
    conv_lhs => rw [hsplit]
    rw [List.append_assoc]
  rw [whole] at tiles ⊢
  exact tiles.filter_block h.tiles some

/-- A plan's inputs are the range's references, those of one object joined. -/
theorem derive_eq (held : s.partition planned.key = some p) (wf : p.WF)
    (h : PlannedRange p planned) : derive s planned =
      .ok ⟨planned, Grouping.collect ObjectRef.object spanBoth
        (within p planned.start planned.stop)⟩ := by
  obtain ⟨first, tiles⟩ := wf.tiles
  obtain ⟨inside, past, rest, sees, hwalk⟩ := Paged.walk_eq (tiles_resident.mp tiles)
    (pages_findBatches held wf) (take_visits wf) h.started (Nat.le_refl _)
    (fun ends => absurd h.range (Nat.not_lt.mpr ends)) (show True from trivial) (s := [])
  have block : inside.map IndexedBatch.reference = within p planned.start planned.stop := by
    have both := congrArg (List.map IndexedBatch.reference) sees.inside_eq
    unfold Paged.from_ at both
    rw [List.filter_filter] at both
    rw [both, ← h.refs_eq wf, ← p.resident_reference, List.filter_map]
    congr 1
    refine List.filter_congr fun batch _ => ?_
    exact Bool.and_comm ..
  unfold derive
  rw [derivePages_eq held wf h.started, hwalk, bind_ok, List.foldl_append,
    foldl_taking_past fun b hb => sees.beyond b (List.mem_append_left _ hb),
    foldl_taking sees.within, block]
  rfl

/-- What a sweep puts in its round was planned and derived. -/
def Swept (s : IndexState) (work : PlannedInputs) : Prop :=
  (∃ topic partition start stop, plan s topic partition start stop = .ok (.planned work.plan)) ∧
    derive s work.plan = .ok work

theorem Sweeping.consider_swept {self next : Sweeping} {candidate : Candidate}
    (swept : ∀ work ∈ self.swept.round, Swept s work)
    (h : self.consider s candidate = .ok next) : ∀ work ∈ next.swept.round, Swept s work := by
  unfold Sweeping.consider at h
  dsimp only at h
  split at h
  · cases h
    exact swept
  · obtain ⟨planning, hplan, h⟩ := bind_eq_ok.mp h
    cases planning with
    | notWorthIt =>
      cases h
      exact swept
    | deferred cost =>
      cases h
      exact swept
    | planned planned =>
      dsimp only at h
      split at h
      · cases h
        exact swept
      · obtain ⟨derived, hderive, h⟩ := bind_eq_ok.mp h
        cases h
        intro work hwork
        rcases List.mem_append.mp hwork with hwork | hwork
        · exact swept work hwork
        · obtain rfl := List.mem_singleton.mp hwork
          obtain ⟨inputs, hinputs, hpair⟩ := bind_eq_ok.mp hderive
          cases hpair
          exact ⟨⟨_, _, _, _, hplan⟩, hderive⟩

theorem sweep_round {candidates : List Candidate} {swept : Sweep}
    (h : sweep s candidates = .ok swept) : ∀ work ∈ swept.round, Swept s work := by
  obtain ⟨last, hfold, hlast⟩ := bind_eq_ok.mp h
  cases hlast
  exact foldlM_invariant (fun sweeping : Sweeping => ∀ work ∈ sweeping.swept.round, Swept s work)
    (fun _ _ _ _ kept hstep => Sweeping.consider_swept kept hstep) (by simp) hfold

end Compact

end Oqueue
