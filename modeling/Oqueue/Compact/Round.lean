import Oqueue.Compact.Install
import Oqueue.Compact.Lossless

/-!
# A round of plans merged into one object

A sweep's plans are merged together: sorted by topic, partition and offset, refused if
two overlap or they are too much for one object, and then read one after another into
one output. What a plan's part of the output holds is what its inputs held.
-/

namespace Oqueue

open Checked Footer Tiling

namespace Compact

/-- Where a plan stands in a round: by topic, then partition, then offset. -/
def roundKey (work : PlannedInputs) : String ×ₗ (Nat ×ₗ Nat) :=
  toLex (work.plan.topic.name, toLex (work.plan.partition, work.plan.start))

def sortRound (round : List PlannedInputs) : List PlannedInputs :=
  round.insertionSort fun left right => roundKey left ≤ roundKey right

/-- Whether a plan begins before the one ahead of it in its partition ends. -/
def overlaps (plan last : CompactionPlan) : Bool :=
  decide (last.key = plan.key) && decide (plan.start < last.stop)

/-- Refuses a round whose plans overlap, or whose total is over the budget. The total
is an `i64` that stops at its greatest value. -/
def admissible : List PlannedInputs → Option CompactionPlan → Nat → Except Error Unit
  | [], _, records =>
    if compactionPlanRecordsBudget < records then
      .error (.compactionRoundTooLarge records compactionPlanRecordsBudget)
    else .ok ()
  | work :: rest, previous, records =>
    if previous.any (overlaps work.plan) then .error .overlappingCompactionPlans
    else admissible rest (some work.plan)
      (min (records + work.plan.cost.recordsRewritten) i64Max)

/-- What merging a round carries from one plan to the next. -/
structure RoundGathering where
  stream : BundleStream
  gets : Nat := 0
  records : Nat := 0

def gatherPlanned (store : MergeStore) (writer : MultipartWriter) (self : RoundGathering)
    (planned : PlannedInputs) : Except Error RoundGathering := do
  let gathered ← gather store writer planned.plan planned.inputs .defaultDomain self.stream
  return ⟨gathered.stream, self.gets + gathered.gets, self.records + gathered.records⟩

def MergeOutcome.empty : MergeOutcome := ⟨0, 0, 0, [], ⟨0, 0⟩, none⟩

/-- Merges every plan into one object. An empty round writes nothing and mints no key. -/
def mergeRound (store : MergeStore) (round : List PlannedInputs) (namer : CompactionNamer) :
    Merged :=
  if round.isEmpty then ⟨.ok .empty, none, namer⟩
  else match admissible (sortRound round) none 0 with
  | .error refusal => ⟨.error refusal, none, namer⟩
  | .ok () => match namer.nextKey with
    | (.error refusal, namer) => ⟨.error refusal, none, namer⟩
    | (.ok output, namer) =>
      let writer := store.openMultipart output
      let gathering : Except Error RoundGathering := do
        let stream ← BundleStream.start writer
        (sortRound round).foldlM (gatherPlanned store writer) { stream := stream }
      match gathering with
      | .error refusal => ⟨.error refusal, none, namer⟩
      | .ok gathered =>
        { result := do
            let (spans, written, _) ← gathered.stream.finish writer
            return ⟨gathered.gets, 1, gathered.records, spans, written, some output⟩
          object := (completed writer gathered.stream).map fun bytes => (output, bytes)
          namer := namer }

variable {s : IndexState}

theorem readAmp_from {key : PartitionKey} {start stop : Nat} {amp : ReadAmp}
    (h : readAmp s key start stop = .ok amp) :
    ∃ begins, start ≤ begins ∧ survey s key begins stop = .ok amp := by
  unfold readAmp at h
  split at h
  · split at h
    · rename_i later
      exact ⟨_, later.le, h⟩
    · cases h
  · exact ⟨start, Nat.le_refl _, h⟩

theorem plan_inside {topic : TopicId} {partition start stop : Nat} {planned : CompactionPlan}
    (wf : ∀ key p, s.partition key = some p → p.WF)
    (h : plan s topic partition start stop = .ok (.planned planned)) :
    start ≤ planned.start ∧ planned.stop ≤ stop := by
  unfold plan at h
  obtain ⟨surveyed, hread, h⟩ := bind_eq_ok.mp h
  dsimp only at h
  split at h
  · cases h
  rename_i low high hcovered
  split at h
  · cases h
  rename_i exceeds
  split at h
  · cases h
  cases h
  obtain ⟨begins, later, hsurvey⟩ := readAmp_from hread
  obtain ⟨range, p, held, started⟩ := survey_covered hsurvey (covered_of_amplification hcovered)
  obtain ⟨walk, inside, past, hwalk, rfl, rfl, folded⟩ := survey_eq held (wf _ p held) started range
  obtain rfl : surveyed = walk.finish := Except.ok.inj (hsurvey.symm.trans hwalk)
  obtain ⟨front, back, low', middle, high', taken, m, hsplit, sub⟩ :=
    (Measures.empty 0).runFrom (folded.wide (wf _ p held))
  obtain ⟨rfl, rfl, objects, -⟩ := m.amplification hcovered
  have some_ : front ≠ [] := by
    rintro rfl
    simp [ReadAmp.exceeds, objects] at exceeds
  have whole : ∀ e ∈ front, walk.start ≤ e.firstBase ∧ e.lastEnd ≤ walk.stop := by
    intro e he
    have among : e ∈ front ++ back := List.mem_append_left _ he
    obtain ⟨seen, all⟩ := mem_sublist_whole sub (hsplit ▸ among)
    exact folded.whole seen all
  have first : (front.head some_).firstBase = low :=
    m.front_tiles.head_lo (List.head?_eq_some_head some_)
  have last : (front.getLast some_).lastEnd = high :=
    m.front_tiles.getLast_hi (List.getLast?_eq_some_getLast some_)
  have lower := (whole _ (List.head_mem some_)).1
  have upper := (whole _ (List.getLast_mem some_)).2
  rw [first] at lower
  rw [last] at upper
  exact ⟨later.trans lower, upper⟩

abbrev Candidate.key (self : Candidate) : PartitionKey := (self.topic, self.partition)

/-- A candidate whose window is not worth a rewrite. -/
def Declined (s : IndexState) (candidate : Candidate) : Prop :=
  plan s candidate.topic candidate.partition candidate.from_ (windowEnd s candidate) =
    .ok .notWorthIt

/-- The window of a candidate that has a budget's width ahead of it. The definition is unfolded
by itself: applied, it would have the kernel count out the width. -/
theorem windowEnd_of_add {candidate : Candidate} {limit : Nat}
    (added : Offset.add candidate.from_ compactionPlanRecordsBudget = .ok limit) :
    windowEnd s candidate = min limit (s.endOffset (candidate.topic, candidate.partition)) := by
  generalize unfolded : windowEnd = window
  delta windowEnd at unfolded
  subst unfolded
  dsimp only
  rw [added]

theorem planned_narrow {candidate : Candidate} {planned : CompactionPlan}
    (wf : ∀ key p, s.partition key = some p → p.WF)
    (h : plan s candidate.topic candidate.partition candidate.from_ (windowEnd s candidate) =
      .ok (.planned planned)) :
    planned.stop ≤ planned.start + compactionPlanRecordsBudget := by
  obtain ⟨lower, upper⟩ := plan_inside wf h
  by_cases fits : candidate.from_ + compactionPlanRecordsBudget ≤ i64Max
  · rw [windowEnd_of_add (Offset.add_eq_ok.mpr ⟨rfl, fits⟩)] at upper
    have := (le_min_iff.mp upper).1
    omega
  · obtain ⟨-, p, held, range⟩ := planned_range wf h
    have := range.stop_le (wf _ p held)
    omega

def Sweep.keys (self : Sweep) : List PartitionKey :=
  self.round.map (fun work => work.plan.key) ++ self.heldOver

theorem Sweeping.consider_cases {self next : Sweeping} {candidate : Candidate}
    (h : self.consider s candidate = .ok next) :
    (candidate.key ∈ self.seen ∧ next = self) ∨
      candidate.key ∉ self.seen ∧ next.seen = self.seen ++ [candidate.key] ∧
        ((Declined s candidate ∧ next.swept = self.swept ∧ next.budget = self.budget) ∨
          (next.swept = { self.swept with heldOver := self.swept.heldOver ++ [candidate.key] } ∧
            next.budget = self.budget) ∨
          ∃ planned inputs,
            plan s candidate.topic candidate.partition candidate.from_ (windowEnd s candidate) =
              .ok (.planned planned) ∧
            planned.cost.recordsRewritten ≤ self.budget ∧
            next.swept = { self.swept with round := self.swept.round ++ [⟨planned, inputs⟩] } ∧
            next.budget = self.budget - planned.cost.recordsRewritten) := by
  unfold Sweeping.consider at h
  dsimp only at h
  split at h
  · rename_i known
    cases h
    exact .inl ⟨List.contains_iff_mem.mp known, rfl⟩
  rename_i fresh
  refine .inr ⟨fun known => fresh (List.contains_iff_mem.mpr known), ?_⟩
  obtain ⟨planning, hplan, h⟩ := bind_eq_ok.mp h
  cases planning with
  | notWorthIt =>
    cases h
    exact ⟨rfl, .inl ⟨hplan, rfl, rfl⟩⟩
  | deferred cost =>
    cases h
    exact ⟨rfl, .inr (.inl ⟨rfl, rfl⟩)⟩
  | planned planned =>
    dsimp only at h
    split at h
    · cases h
      exact ⟨rfl, .inr (.inl ⟨rfl, rfl⟩)⟩
    · rename_i affordable
      obtain ⟨derived, hderive, h⟩ := bind_eq_ok.mp h
      obtain ⟨inputs, -, same⟩ := bind_eq_ok.mp hderive
      cases same
      cases h
      exact ⟨rfl, .inr (.inr ⟨planned, inputs, hplan, Nat.not_lt.mp affordable, rfl, rfl⟩)⟩

/-- What holds of a sweep between two candidates. -/
structure Sweeping.Kept (s : IndexState) (candidates : List Candidate) (sweeping : Sweeping) :
    Prop where
  known : ∀ key ∈ sweeping.swept.keys, key ∈ sweeping.seen
  once : sweeping.swept.keys.Nodup
  asked : ∀ key ∈ sweeping.seen, ∃ candidate ∈ candidates, candidate.key = key
  settled : ∀ key ∈ sweeping.seen, key ∈ sweeping.swept.keys ∨
    ∃ candidate ∈ candidates, candidate.key = key ∧ Declined s candidate
  budget : (sweeping.swept.round.map fun work => work.plan.cost.recordsRewritten).sum +
    sweeping.budget = compactionPlanRecordsBudget
  narrow : ∀ work ∈ sweeping.swept.round,
    work.plan.stop ≤ work.plan.start + compactionPlanRecordsBudget

/-- A partition settled in the round or among those held over is one more key. -/
theorem Sweeping.Kept.settles {candidates : List Candidate} {self next : Sweeping}
    (kept : self.Kept s candidates) {candidate : Candidate} (member : candidate ∈ candidates)
    (fresh : candidate.key ∉ self.seen) (sees : next.seen = self.seen ++ [candidate.key])
    (keys : next.swept.keys.Perm (candidate.key :: self.swept.keys)) :
    (∀ key ∈ next.swept.keys, key ∈ next.seen) ∧ next.swept.keys.Nodup ∧
      (∀ key ∈ next.seen, ∃ candidate ∈ candidates, candidate.key = key) ∧
      ∀ key ∈ next.seen, key ∈ next.swept.keys ∨
        ∃ candidate ∈ candidates, candidate.key = key ∧ Declined s candidate := by
  have among : ∀ key, key ∈ next.swept.keys ↔ key = candidate.key ∨ key ∈ self.swept.keys := by
    intro key
    rw [keys.mem_iff, List.mem_cons]
  have seen : ∀ key, key ∈ next.seen ↔ key ∈ self.seen ∨ key = candidate.key := by
    intro key
    rw [sees, List.mem_append, List.mem_singleton]
  refine ⟨fun key hkey => ?_, ?_, fun key hkey => ?_, fun key hkey => ?_⟩
  · exact (seen key).mpr (((among key).mp hkey).symm.imp_left (kept.known key))
  · exact keys.nodup_iff.mpr
      (List.nodup_cons.mpr ⟨fun known => fresh (kept.known _ known), kept.once⟩)
  · rcases (seen key).mp hkey with hkey | rfl
    · exact kept.asked key hkey
    · exact ⟨candidate, member, rfl⟩
  · rcases (seen key).mp hkey with hkey | rfl
    · exact (kept.settled key hkey).imp_left fun held => (among key).mpr (.inr held)
    · exact .inl ((among _).mpr (.inl rfl))

theorem Sweeping.Kept.consider {candidates : List Candidate} {self next : Sweeping}
    (wf : ∀ key p, s.partition key = some p → p.WF) (kept : self.Kept s candidates)
    {candidate : Candidate} (member : candidate ∈ candidates)
    (h : self.consider s candidate = .ok next) : next.Kept s candidates := by
  obtain ⟨-, rfl⟩ | ⟨fresh, sees, did⟩ := Sweeping.consider_cases h
  · exact kept
  obtain ⟨declined, swept, budget⟩ | ⟨swept, budget⟩ | ⟨planned, inputs, hplan, fits, swept,
    budget⟩ := did
  · refine ⟨?_, ?_, ?_, ?_, ?_, ?_⟩
    · intro key hkey
      rw [swept] at hkey
      rw [sees]
      exact List.mem_append_left _ (kept.known key hkey)
    · rw [swept]
      exact kept.once
    · intro key hkey
      rw [sees, List.mem_append, List.mem_singleton] at hkey
      rcases hkey with hkey | rfl
      · exact kept.asked key hkey
      · exact ⟨candidate, member, rfl⟩
    · intro key hkey
      rw [sees, List.mem_append, List.mem_singleton] at hkey
      rw [swept]
      rcases hkey with hkey | rfl
      · exact kept.settled key hkey
      · exact .inr ⟨candidate, member, rfl, declined⟩
    · rw [swept, budget]
      exact kept.budget
    · rw [swept]
      exact kept.narrow
  · have keys : next.swept.keys.Perm (candidate.key :: self.swept.keys) := by
      rw [swept, Sweep.keys, ← List.append_assoc]
      exact List.perm_append_singleton ..
    obtain ⟨known, once, asked, settled⟩ := kept.settles member fresh sees keys
    refine ⟨known, once, asked, settled, ?_, ?_⟩
    · rw [swept, budget]
      exact kept.budget
    · rw [swept]
      exact kept.narrow
  · have same : planned.key = candidate.key := (planned_range wf hplan).1
    have keys : next.swept.keys.Perm (candidate.key :: self.swept.keys) := by
      rw [swept, Sweep.keys, List.map_append, List.map_singleton, same, List.append_assoc]
      exact List.perm_middle
    obtain ⟨known, once, asked, settled⟩ := kept.settles member fresh sees keys
    refine ⟨known, once, asked, settled, ?_, ?_⟩
    · rw [swept, budget, List.map_append, List.sum_append, List.map_singleton,
        List.sum_singleton]
      have := kept.budget
      dsimp only
      omega
    · rw [swept]
      intro work hwork
      rcases List.mem_append.mp hwork with hwork | hwork
      · exact kept.narrow work hwork
      · obtain rfl := List.mem_singleton.mp hwork
        exact planned_narrow wf hplan

theorem seen_of_swept {candidates : List Candidate} {self last : Sweeping}
    (h : candidates.foldlM (Sweeping.consider s) self = .ok last) :
    (∀ key ∈ self.seen, key ∈ last.seen) ∧
      ∀ candidate ∈ candidates, candidate.key ∈ last.seen := by
  induction candidates generalizing self with
  | nil =>
    cases h
    exact ⟨fun _ => id, by simp⟩
  | cons candidate rest ih =>
    rw [List.foldlM_cons, bind_eq_ok] at h
    obtain ⟨next, considered, h⟩ := h
    obtain ⟨older, later⟩ := ih h
    have here : (∀ key ∈ self.seen, key ∈ next.seen) ∧ candidate.key ∈ next.seen := by
      obtain ⟨known, rfl⟩ | ⟨-, sees, -⟩ := Sweeping.consider_cases considered
      · exact ⟨fun _ => id, known⟩
      · rw [sees]
        exact ⟨fun _ => List.mem_append_left _, List.mem_append_right _ (List.mem_singleton_self _)⟩
    refine ⟨fun key hkey => older key (here.1 key hkey), fun other hother => ?_⟩
    rcases List.mem_cons.mp hother with rfl | hother
    · exact older _ here.2
    · exact later other hother

/-- A sweep loses no candidate: each partition is in the round, held over, or not worth a
rewrite; none is twice in the round, and together the plans fit one object. -/
structure Accounts (s : IndexState) (candidates : List Candidate) (swept : Sweep) : Prop where
  once : swept.keys.Nodup
  asked : ∀ key ∈ swept.keys, ∃ candidate ∈ candidates, candidate.key = key
  settled : ∀ candidate ∈ candidates, candidate.key ∈ swept.keys ∨
    ∃ other ∈ candidates, other.key = candidate.key ∧ Declined s other
  budget : (swept.round.map fun work => work.plan.cost.recordsRewritten).sum ≤
    compactionPlanRecordsBudget
  narrow : ∀ work ∈ swept.round, work.plan.stop ≤ work.plan.start + compactionPlanRecordsBudget
  derived : ∀ work ∈ swept.round, Swept s work

theorem sweep_accounts (wf : ∀ key p, s.partition key = some p → p.WF)
    {candidates : List Candidate} {swept : Sweep} (h : sweep s candidates = .ok swept) :
    Accounts s candidates swept := by
  have derived := sweep_round h
  obtain ⟨last, hfold, hlast⟩ := bind_eq_ok.mp h
  cases hlast
  have started : ({} : Sweeping).Kept s candidates :=
    ⟨by simp [Sweep.keys], by simp [Sweep.keys], by simp, by simp, by simp, by simp⟩
  have kept := foldlM_invariant (Sweeping.Kept s candidates)
    (fun _ _ member _ kept hstep => Sweeping.Kept.consider wf kept member hstep) started hfold
  refine ⟨kept.once, fun key hkey => kept.asked key (kept.known key hkey),
    fun candidate member => ?_, ?_, kept.narrow, derived⟩
  · exact kept.settled _ ((seen_of_swept hfold).2 candidate member)
  · have := kept.budget
    omega

theorem plan_total (wf : ∀ key p, s.partition key = some p → p.WF) (topic : TopicId)
    (partition start stop : Nat) : ∃ planning, plan s topic partition start stop = .ok planning := by
  obtain ⟨surveyed, measured⟩ :=
    @readAmp_total s (topic, partition) wf start stop
  unfold plan
  rw [measured, bind_ok]
  dsimp only
  split
  · exact ⟨_, rfl⟩
  split
  · exact ⟨_, rfl⟩
  split
  · exact ⟨_, rfl⟩
  · exact ⟨_, rfl⟩

theorem Sweeping.consider_total (wf : ∀ key p, s.partition key = some p → p.WF)
    (self : Sweeping) (candidate : Candidate) : ∃ next, self.consider s candidate = .ok next := by
  obtain ⟨planning, hplan⟩ := plan_total wf candidate.topic candidate.partition candidate.from_
    (windowEnd s candidate)
  unfold Sweeping.consider
  dsimp only
  split
  · exact ⟨_, rfl⟩
  rw [hplan, bind_ok]
  cases planning with
  | notWorthIt => exact ⟨_, rfl⟩
  | deferred cost => exact ⟨_, rfl⟩
  | planned planned =>
    dsimp only
    split
    · exact ⟨_, rfl⟩
    · obtain ⟨-, p, held, range⟩ := planned_range wf hplan
      rw [derive_eq held (wf _ p held) range, bind_ok]
      exact ⟨_, rfl⟩

/-- A sweep is never refused: what it plans, it can derive. -/
theorem sweep_total (wf : ∀ key p, s.partition key = some p → p.WF)
    (candidates : List Candidate) : ∃ swept, sweep s candidates = .ok swept := by
  obtain ⟨last, hfold⟩ := foldlM_total (Sweeping.consider_total wf) candidates {}
  refine ⟨last.swept, ?_⟩
  unfold sweep
  rw [hfold, bind_ok]
  rfl

/-- Two plans that rewrite no record both. -/
def Apart (left right : PlannedInputs) : Prop :=
  left.plan.key = right.plan.key →
    left.plan.stop ≤ right.plan.start ∨ right.plan.stop ≤ left.plan.start

theorem roundKey_le {left right : PlannedInputs} : roundKey left ≤ roundKey right ↔
    left.plan.topic.name < right.plan.topic.name ∨
      left.plan.topic = right.plan.topic ∧ (left.plan.partition < right.plan.partition ∨
        left.plan.partition = right.plan.partition ∧ left.plan.start ≤ right.plan.start) := by
  have named : left.plan.topic.name = right.plan.topic.name ↔
      left.plan.topic = right.plan.topic := by
    rcases left.plan.topic with ⟨name⟩
    rcases right.plan.topic with ⟨name'⟩
    simp
  unfold roundKey
  rw [Prod.Lex.toLex_le_toLex, Prod.Lex.toLex_le_toLex, named]

theorem sortRound_perm (round : List PlannedInputs) : (sortRound round).Perm round :=
  List.perm_insertionSort ..

theorem sortRound_sorted (round : List PlannedInputs) :
    (sortRound round).Pairwise fun left right => roundKey left ≤ roundKey right :=
  List.pairwise_insertionSort ..

theorem start_le {a b : PlannedInputs} (sorted : roundKey a ≤ roundKey b)
    (same : a.plan.key = b.plan.key) : a.plan.start ≤ b.plan.start := by
  obtain ⟨topic, partition⟩ := Prod.mk.inj same
  rcases roundKey_le.mp sorted with less | ⟨-, less | ⟨-, ordered⟩⟩
  · exact absurd (topic ▸ less) (lt_irrefl _)
  · omega
  · exact ordered

theorem key_between {a b c : PlannedInputs} (ab : roundKey a ≤ roundKey b)
    (bc : roundKey b ≤ roundKey c) (same : a.plan.key = c.plan.key) :
    a.plan.key = b.plan.key := by
  obtain ⟨topic, partition⟩ := Prod.mk.inj same
  have second := roundKey_le.mp bc
  rw [← topic, ← partition] at second
  rcases roundKey_le.mp ab with less | ⟨named, numbered⟩
  · rcases second with less' | ⟨named', -⟩
    · exact absurd (less.trans less') (lt_irrefl _)
    · exact absurd (named' ▸ less) (lt_irrefl _)
  · refine Prod.ext named ?_
    rcases second with less' | ⟨-, numbered'⟩
    · exact absurd (named ▸ less') (lt_irrefl _)
    · change a.plan.partition = b.plan.partition
      omega

theorem overlaps_eq_false {plan last : CompactionPlan} :
    overlaps plan last = false ↔ (last.key = plan.key → last.stop ≤ plan.start) := by
  simp [overlaps]

/-- In order, it is enough that each plan ends before the next one begins. -/
theorem isChain_overlaps {works : List PlannedInputs}
    (sorted : works.Pairwise fun left right => roundKey left ≤ roundKey right)
    (ranges : ∀ work ∈ works, work.plan.start < work.plan.stop) :
    works.IsChain (fun last next => overlaps next.plan last.plan = false) ↔
      works.Pairwise Apart := by
  induction works with
  | nil => simp
  | cons a rest ih =>
    obtain ⟨first, sorted⟩ := List.pairwise_cons.mp sorted
    have later := fun work h => ranges work (List.mem_cons_of_mem _ h)
    cases rest with
    | nil => simp
    | cons b rest =>
      have ahead : ∀ c ∈ b :: rest, a.plan.key = c.plan.key →
          roundKey b ≤ roundKey c ∨ b = c := by
        intro c hc _
        rcases List.mem_cons.mp hc with rfl | hc
        · exact .inr rfl
        · exact .inl ((List.pairwise_cons.mp sorted).1 c hc)
      rw [List.isChain_cons_cons, overlaps_eq_false, List.pairwise_cons, ih sorted later]
      refine and_congr_left fun _ => ?_
      constructor
      · intro meets c hc same
        rcases ahead c hc same with sorted | rfl
        · have mine := key_between (first b (List.mem_cons_self ..)) sorted same
          exact .inl ((meets mine).trans (start_le sorted (mine.symm.trans same)))
        · exact .inl (meets same)
      · intro apart same
        have := later b (List.mem_cons_self ..)
        have := start_le (first b (List.mem_cons_self ..)) same
        have := apart b (List.mem_cons_self ..) same
        omega

/-- A walk of a round passes when no plan begins before the one ahead of it ends, and
the records are no more than the budget. -/
theorem admissible_walk {works : List PlannedInputs} {previous : Option CompactionPlan}
    {records : Nat} : admissible works previous records = .ok () ↔
      (previous.toList ++ works.map PlannedInputs.plan).IsChain
          (fun last plan => overlaps plan last = false) ∧
        records + (works.map fun work => work.plan.cost.recordsRewritten).sum ≤
          compactionPlanRecordsBudget := by
  induction works generalizing previous records with
  | nil =>
    have single : (previous.toList ++ [].map PlannedInputs.plan).IsChain
        (fun last plan => overlaps plan last = false) := by
      cases previous <;> simp
    unfold admissible
    rw [and_iff_right single, List.map_nil, List.sum_nil, Nat.add_zero]
    by_cases over_ : compactionPlanRecordsBudget < records
    · simp [over_]
    · simp [over_, Nat.not_lt.mp over_]
  | cons work rest ih =>
    have capped : min (records + work.plan.cost.recordsRewritten) i64Max +
          (rest.map fun work => work.plan.cost.recordsRewritten).sum ≤
            compactionPlanRecordsBudget ↔
        records + ((work :: rest).map fun work => work.plan.cost.recordsRewritten).sum ≤
            compactionPlanRecordsBudget := by
      rw [List.map_cons, List.sum_cons]
      unfold i64Max compactionPlanRecordsBudget
      omega
    unfold admissible
    rw [← capped]
    cases previous with
    | none =>
      simp only [Option.any_none, Bool.false_eq_true, if_false, ih]
      rfl
    | some last =>
      rw [Option.any_some, List.map_cons, Option.toList_some, List.singleton_append,
        List.isChain_cons_cons]
      cases begins : overlaps work.plan last with
      | true => simp
      | false =>
        simp only [Bool.false_eq_true, if_false, ih, true_and]
        rfl

theorem admissible_iff {round : List PlannedInputs}
    (ranges : ∀ work ∈ round, work.plan.start < work.plan.stop) :
    admissible (sortRound round) none 0 = .ok () ↔ round.Pairwise Apart ∧
      (round.map fun work => work.plan.cost.recordsRewritten).sum ≤
        compactionPlanRecordsBudget := by
  have perm := sortRound_perm round
  have symmetric : ∀ {a b}, Apart a b → Apart b a := fun apart same => (apart same.symm).symm
  rw [admissible_walk, (perm.map _).sum_eq, ← perm.pairwise_iff symmetric, Nat.zero_add,
    Option.toList_none, List.nil_append, List.isChain_map,
    isChain_overlaps (sortRound_sorted round) fun work h => ranges work (perm.subset h)]

end Compact

end Oqueue
