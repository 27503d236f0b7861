import Oqueue.Broker.Fetch
import Oqueue.Broker.GapFree

/-!
# A fetch makes progress within its budget

A read goes on only below its allowance, so it passes it by its last batch at most; and until
some partition has returned something, a partition that has anything to read reads one batch
whatever the budget. So a pass passes its budget by one batch, and a partition that is
answered with nothing has nothing, or comes after one that was answered with records.
-/

namespace Oqueue.Broker

open Codec Checked

/-- What a read serves is below its allowance but for its last batch; alone, that batch needs
no allowance if the read may overshoot. -/
def Allowance.Allows (self : Allowance) (served : List (IndexedBatch × List UInt8)) : Prop :=
  ∀ front last, served = front ++ [last] → (recordsOf front).length < self.bytes ∨
    (recordsOf front = [] ∧ self.mayOvershoot = true)

def Filled (served : List (IndexedBatch × List UInt8)) : Prop := ∀ batch ∈ served, batch.2 ≠ []

namespace Cluster

variable {self : Cluster} {topic : TopicId} {partition : Nat} {allowance : Allowance}

theorem readPage_allows {page : List IndexedBatch} {served : List (IndexedBatch × List UInt8)}
    {fetched : Nat} {objects : FetchedObjects} (allows : allowance.Allows served)
    (filled : Filled served) {out : Read}
    (h : (self.readPage topic partition allowance page served fetched objects).1 = .ok out) :
    allowance.Allows out.served ∧ Filled out.served := by
  induction page generalizing served fetched objects with
  | nil =>
    cases h
    exact ⟨allows, filled⟩
  | cons batch page ih =>
    unfold readPage at h
    split at h
    · cases h
      exact ⟨allows, filled⟩
    · rename_i within
      dsimp only at h
      split at h
      · split at h
        · cases h
        · cases h
          exact ⟨allows, filled⟩
      · split at h
        · cases h
        · rename_i stamped hstamped
          refine ih ?_ ?_ h
          · intro front last split_
            obtain ⟨rfl, -⟩ := List.append_inj' split_ rfl
            rw [not_and_or, not_not, List.isEmpty_iff] at within
            rcases within with below | alone
            · exact .inl (lt_of_le_of_lt (le_max_right ..) (Nat.lt_of_not_le below))
            · exact .inr alone
          · intro one among
            rcases List.mem_append.mp among with among | among
            · exact filled one among
            · rw [List.mem_singleton] at among
              rw [among]
              exact rewriteBaseOffset_ne_nil hstamped

theorem readPage_extends {page : List IndexedBatch} {served : List (IndexedBatch × List UInt8)}
    {fetched : Nat} {objects : FetchedObjects} {out : Read}
    (h : (self.readPage topic partition allowance page served fetched objects).1 = .ok out) :
    served <+: out.served := by
  induction page generalizing served fetched objects with
  | nil =>
    cases h
    exact List.prefix_refl _
  | cons batch page ih =>
    unfold readPage at h
    split at h
    · cases h
      exact List.prefix_refl _
    · dsimp only at h
      split at h
      · split at h
        · cases h
        · cases h
          exact List.prefix_refl _
      · split at h
        · cases h
        · exact (List.prefix_append ..).trans (ih h)

theorem readPage_nonempty (overshoots : allowance.mayOvershoot = true) {page : List IndexedBatch}
    (some : page ≠ []) {fetched : Nat} {objects : FetchedObjects} {out : Read}
    (h : (self.readPage topic partition allowance page [] fetched objects).1 = .ok out) :
    out.served ≠ [] := by
  cases page with
  | nil => exact absurd rfl some
  | cons batch page =>
    unfold readPage at h
    rw [if_neg (by simp [recordsOf, overshoots])] at h
    dsimp only at h
    split at h
    · rw [if_pos (by simp [recordsOf])] at h
      cases h
    · split at h
      · cases h
      · intro empty
        have extends_ := readPage_extends h
        rw [empty] at extends_
        simp at extends_

end Cluster

namespace Node

variable {self : Node} {moments : Moments} {index : IndexState} {objects : FetchedObjects}

/-- What a partition that is read resolves to. -/
theorem resolve_ok {topic : Option String} {unknown at_ fetchOffset high : Int}
    {topicId : TopicId} {partition start : Nat}
    (h : self.resolve index topic unknown at_ fetchOffset =
      .ok (topicId, partition, high, start)) :
    ∃ name, topic = some name ∧ self.hosts name at_ = true ∧ TopicId.new name = .ok topicId ∧
      PartitionId.new at_ = .ok partition ∧ high = index.endOffset (topicId, partition) ∧
      Offset.new fetchOffset = .ok start ∧ fetchOffset ≤ high := by
  unfold resolve at h
  split at h
  · cases h
  · rename_i name
    split at h
    · cases h
    · rename_i hosted
      split at h
      · rename_i topicId' partition' named numbered
        dsimp only at h
        split at h
        · cases h
        · rename_i start' offset
          split at h
          · cases h
          · rename_i within
            cases h
            exact ⟨name, rfl, by simpa using hosted, named, numbered, rfl, offset,
              not_lt.mp within⟩
      · cases h

theorem resolve_error {topic : Option String} {unknown at_ fetchOffset : Int} {code high : Int}
    (h : self.resolve index topic unknown at_ fetchOffset = .error (code, high)) :
    code = unknown ∨ code = ErrorCode.unknownTopicOrPartition ∨
      code = ErrorCode.offsetOutOfRange := by
  unfold resolve at h
  split at h
  · cases h
    exact .inl rfl
  · split at h
    · cases h
      exact .inr (.inl rfl)
    · split at h
      · dsimp only at h
        split at h
        · cases h
          exact .inr (.inr rfl)
        · split at h
          · cases h
            exact .inr (.inr rfl)
          · cases h
      · cases h
        exact .inr (.inl rfl)

theorem readAcross_ok {topic : TopicId} {partition start : Nat} {allowance : Allowance}
    {out : Broker.Read}
    (h : (self.readAcross moments topic partition start allowance objects).1 = .ok out) :
    ∃ fromManifest fromIndex,
      ((self.cluster moments.manifest).manifestPage topic partition start allowance
        objects).1.batches = .ok fromManifest ∧
      moments.finding.findBatches (topic, partition) start allowance.bytes = .ok fromIndex ∧
      ((self.cluster moments.finding).readPage topic partition allowance
        (fromManifest ++ fromIndex) []
        ((self.cluster moments.manifest).manifestPage topic partition start allowance
          objects).1.cost
        ((self.cluster moments.manifest).manifestPage topic partition start allowance
          objects).2).1 = .ok out := by
  unfold readAcross at h
  dsimp only at h
  split at h
  · cases h
  · rename_i fromManifest hmanifest
    split at h
    · cases h
    · rename_i fromIndex hindex
      exact ⟨fromManifest, fromIndex, hmanifest, hindex, h⟩

theorem refusalCode_ne_none (error : Error) : refusalCode error ≠ ErrorCode.none := by
  unfold refusalCode
  split <;> decide

/-- What one partition is answered: nothing, or what a read of it serves. -/
theorem onePartition_cases (self : Node) (moments : Moments) (topic : Option String)
    (unknown : Int) (asked : FetchPartition) (allowance : Allowance) (objects : FetchedObjects) :
    ((self.onePartition moments topic unknown asked allowance objects).1.served = [] ∧
      ((self.onePartition moments topic unknown asked allowance objects).1.errorCode = unknown ∨
        (self.onePartition moments topic unknown asked allowance objects).1.errorCode ≠
          ErrorCode.none)) ∨
    ∃ topicId partition high start read,
      self.resolve moments.resolving topic unknown asked.index asked.fetchOffset =
        .ok (topicId, partition, high, start) ∧
      (self.readAcross moments topicId partition start allowance objects).1 = .ok read ∧
      (self.onePartition moments topic unknown asked allowance objects).1 =
        ⟨max read.fetched read.records.length, asked.index, ErrorCode.none, high, high, 0,
          read.served⟩ := by
  unfold onePartition
  dsimp only
  split
  · rename_i code high refused_
    refine .inl ⟨rfl, ?_⟩
    rcases resolve_error refused_ with same | same | same
    · exact .inl same
    · exact .inr fun none_ => absurd (same.symm.trans none_) (by decide)
    · exact .inr fun none_ => absurd (same.symm.trans none_) (by decide)
  · rename_i topicId partition high start resolved
    split
    · rename_i read objects' answered
      exact .inr ⟨topicId, partition, high, start, read, resolved, by rw [answered], rfl⟩
    · rename_i failure objects' answered
      exact .inl ⟨rfl, .inr (refusalCode_ne_none failure.error)⟩

theorem onePartition_allows (self : Node) (moments : Moments) (topic : Option String)
    (unknown : Int) (asked : FetchPartition) (allowance : Allowance) (objects : FetchedObjects) :
    let outcome := (self.onePartition moments topic unknown asked allowance objects).1
    allowance.Allows outcome.served ∧ Filled outcome.served ∧
      outcome.records.length ≤ outcome.cost := by
  dsimp only
  unfold PartitionOutcome.records
  rcases onePartition_cases self moments topic unknown asked allowance objects with
    ⟨nothing, -⟩ | ⟨topicId, partition, high, start, read, -, answered, outcome⟩
  · rw [nothing]
    refine ⟨fun front last split_ => ?_, (fun batch among => by cases among), Nat.zero_le _⟩
    simp at split_
  · rw [outcome]
    obtain ⟨fromManifest, fromIndex, -, -, served⟩ := readAcross_ok answered
    obtain ⟨allows, filled⟩ := Cluster.readPage_allows (fun front last split_ => by simp at split_)
      (fun batch among => by cases among) served
    exact ⟨allows, filled, le_max_right ..⟩

end Node

/-- The records a pass has returned so far, in bytes. -/
def returned (outcomes : List PartitionOutcome) : Nat :=
  (outcomes.map fun outcome => outcome.records.length).sum

/-- What has been returned is paid for out of the budget; or the budget is gone, and what has
been returned passes it by one batch at most. -/
structure Budget.Holds (budget : Budget) (total : Nat) (outcomes : List PartitionOutcome) :
    Prop where
  started : budget.returnedAnything = true ↔ returned outcomes ≠ 0
  within : returned outcomes + budget.left ≤ total ∨ (budget.left = 0 ∧
    returned outcomes ≠ 0 ∧ ∃ outcome ∈ outcomes, ∃ batch ∈ outcome.served,
      returned outcomes ≤ total + batch.2.length)

theorem length_recordsOf_append (front : List (IndexedBatch × List UInt8))
    (last : IndexedBatch × List UInt8) :
    (recordsOf (front ++ [last])).length = (recordsOf front).length + last.2.length := by
  simp [recordsOf]

theorem records_eq_nil {outcome : PartitionOutcome} (filled : Filled outcome.served) :
    outcome.records = [] ↔ outcome.served = [] := by
  unfold PartitionOutcome.records recordsOf
  rw [List.flatMap_eq_nil_iff]
  constructor
  · intro none_
    rw [List.eq_nil_iff_forall_not_mem]
    exact fun batch among => filled batch among (none_ batch among)
  · intro none_ batch among
    rw [none_] at among
    cases among

namespace Budget.Holds

variable {budget : Budget} {total : Nat} {outcomes : List PartitionOutcome}

theorem init (maxBytes : Int) :
    (Budget.new maxBytes).Holds (min maxBytes.toNat readBudgetBytes) [] where
  started := by simp [returned, Budget.new]
  within := .inl (by simp [returned, Budget.new])

theorem mayOvershoot_iff (holds : budget.Holds total outcomes) :
    budget.mayOvershoot = true ↔ returned outcomes = 0 := by
  unfold mayOvershoot
  rw [Bool.not_eq_true', ← Bool.not_eq_true, holds.started, not_not]

/-- One more partition, read within its allowance and paid for. -/
theorem spend (holds : budget.Holds total outcomes) {partitionMaxBytes : Int}
    {outcome : PartitionOutcome}
    (allows : (budget.allowance partitionMaxBytes).Allows outcome.served)
    (paid : outcome.records.length ≤ outcome.cost) :
    (budget.spend outcome.cost (!outcome.records.isEmpty)).Holds total
      (outcomes ++ [outcome]) := by
  have added : returned (outcomes ++ [outcome]) = returned outcomes + outcome.records.length := by
    simp [returned]
  have share : (budget.allowance partitionMaxBytes).bytes ≤ budget.left := Nat.min_le_right ..
  constructor
  · have some_iff : (!outcome.records.isEmpty) = true ↔ outcome.records.length ≠ 0 := by
      simp
    unfold Budget.spend
    rw [Bool.or_eq_true, holds.started, some_iff, added]
    omega
  · rw [added]
    unfold Budget.spend
    dsimp only
    rcases List.eq_nil_or_concat' outcome.served with nothing | ⟨front, last, served⟩
    · have none_ : outcome.records.length = 0 := by
        simp [PartitionOutcome.records, nothing, recordsOf]
      rcases holds.within with within | ⟨gone, some, paying, among, batch, serves, passes⟩
      · exact .inl (by omega)
      · exact .inr ⟨by omega, by omega, paying, List.mem_append_left _ among, batch, serves,
          by omega⟩
    · have length_ : outcome.records.length = (recordsOf front).length + last.2.length := by
        unfold PartitionOutcome.records
        rw [served]
        exact length_recordsOf_append front last
      have serves : last ∈ outcome.served := by
        rw [served]
        exact List.mem_append_right _ (List.mem_singleton_self _)
      have own : outcome ∈ outcomes ++ [outcome] :=
        List.mem_append_right _ (List.mem_singleton_self _)
      rcases holds.within with within | ⟨gone, some, -⟩
      · by_cases inside : outcome.records.length ≤ budget.left
        · exact .inl (by omega)
        · refine .inr ⟨by omega, by omega, outcome, own, last, serves, ?_⟩
          rcases allows front last served with below | ⟨alone, overshoots⟩
          · omega
          · have first := holds.mayOvershoot_iff.mp overshoots
            rw [alone, List.length_nil] at length_
            omega
      · -- A budget that is gone lets nothing more be served.
        rcases allows front last served with below | ⟨-, overshoots⟩
        · omega
        · exact absurd (holds.mayOvershoot_iff.mp overshoots) some

theorem refuse (holds : budget.Holds total outcomes) {outcome : PartitionOutcome}
    (nothing : outcome.served = []) : budget.Holds total (outcomes ++ [outcome]) := by
  have same : returned (outcomes ++ [outcome]) = returned outcomes := by
    simp [returned, PartitionOutcome.records, nothing, recordsOf]
  constructor
  · rw [same]
    exact holds.started
  · rw [same]
    rcases holds.within with within | ⟨gone, some, paying, among, passes⟩
    · exact .inl within
    · exact .inr ⟨gone, some, paying, List.mem_append_left _ among, passes⟩

end Budget.Holds

namespace Cluster

variable {self : Cluster} {topic : TopicId} {partition start : Nat} {p : PartitionIndex}
  {allowance : Allowance}

theorem readPage_honest {page : List IndexedBatch} {served : List (IndexedBatch × List UInt8)}
    {fetched : Nat} {objects : FetchedObjects} (honest : objects.Honest self) :
    (self.readPage topic partition allowance page served fetched objects).2.Honest self := by
  induction page generalizing served fetched objects with
  | nil => exact honest
  | cons batch page ih =>
    obtain ⟨kept, -⟩ := @oneBatch_honest self topic partition objects honest batch
    unfold readPage
    split
    · exact honest
    · dsimp only
      split
      · split
        · exact kept
        · exact kept
      · split
        · split
          · exact kept.noteFailure
          · exact kept
        · exact ih kept

theorem manifestBatches_honest {upto hops cost : Nat} {key : ObjectKey} {objects : FetchedObjects}
    (honest : objects.Honest self) :
    (self.manifestBatches start upto hops key cost objects).2.Honest self := by
  induction hops generalizing key cost objects with
  | zero => exact honest
  | succ hops ih =>
    have fetched := honest.get key .full
    unfold manifestBatches
    split <;> rename_i hget <;> rw [hget] at fetched
    · exact fetched.1
    · dsimp only
      split
      · exact fetched.1
      · split
        · exact fetched.1
        · split
          · exact fetched.1
          · exact ih fetched.1

theorem manifestPage_honest {objects : FetchedObjects} (honest : objects.Honest self) :
    (self.manifestPage topic partition start allowance objects).2.Honest self := by
  unfold manifestPage
  split
  · split
    · exact manifestBatches_honest honest
    · exact honest
  · exact honest

/-- The manifests a partition's index names list what it says they cover. -/
def Covered (self : Cluster) : Prop :=
  ∀ topic partition p, self.index.partition (topic, partition) = some p →
    ∀ key upto, p.manifest = some (key, upto) →
      ∃ links, Published self key p.logStart upto links

/-- Below the end of a partition there is a batch to read, in the manifest tier or past it. -/
theorem page_nonempty (held : self.index.partition (topic, partition) = some p) (wf : p.WF)
    (covered : self.Covered) (started : p.logStart ≤ start) (below : start < p.endOffset)
    (overshoots : allowance.mayOvershoot = true) {objects : FetchedObjects}
    (honest : objects.Honest self) {fromManifest fromIndex : List IndexedBatch}
    (hmanifest : (self.manifestPage topic partition start allowance objects).1.batches =
      .ok fromManifest)
    (hindex : self.index.findBatches (topic, partition) start allowance.bytes = .ok fromIndex) :
    fromManifest ++ fromIndex ≠ [] := by
  have resident_some : ∀ low, low ≤ start → RefTiles p.refs low p.endOffset → fromIndex ≠ [] := by
    intro low begins tiles
    obtain ⟨batches, rest, found, -, some⟩ := findBatches_spec held wf started allowance.bytes
    cases found.symm.trans hindex
    apply some
    obtain ⟨batch, among, -, past⟩ :=
      ((PartitionIndex.tiles_resident.mp tiles).cover start).mp ⟨begins, below⟩
    exact List.ne_nil_of_mem (List.mem_filter.mpr ⟨among, decide_eq_true past⟩)
  unfold manifestPage at hmanifest
  rw [manifest_eq held] at hmanifest
  cases named : p.manifest with
  | none =>
    obtain ⟨low, begins, tiles⟩ := wf.reaches named
    have some := resident_some low (begins.trans started) tiles
    simp [some]
  | some covering =>
    obtain ⟨key, upto⟩ := covering
    by_cases inside : start < upto
    · -- The link that holds the start has it on its page.
      obtain ⟨links, published⟩ := covered topic partition p held key upto named
      obtain ⟨depth, manifest, position, holds, low, high, entries⟩ :=
        exists_holder wf named published started inside
      rw [named] at hmanifest
      dsimp only at hmanifest
      rw [if_pos ⟨inside, .inr overshoots⟩] at hmanifest
      obtain ⟨-, answered⟩ := @manifestBatches_ok self links published.linked start upto depth
        position manifest holds maxManifestHops 0 key objects published.newest honest
      obtain ⟨-, rfl⟩ := answered _ hmanifest
      obtain ⟨first, rest, -, -, page, -⟩ := pageOf_spec entries holds.found inside
      simp [page]
    · have some := resident_some upto (not_lt.mp inside) (wf.manifest_meets _ named)
      simp [some]

end Cluster

/-- How a partition of a request is answered after others: without an error, with the end of
the partition it names, and with nothing only at that end or after something was returned. -/
def Answered (index : IndexState) (before : List PartitionOutcome)
    (asked : Option String × FetchPartition) (outcome : PartitionOutcome) : Prop :=
  outcome.errorCode = ErrorCode.none →
    (∃ name topic partition, asked.1 = some name ∧ TopicId.new name = .ok topic ∧
      PartitionId.new asked.2.index = .ok partition ∧
      outcome.highWatermark = index.endOffset (topic, partition)) ∧
    (outcome.records = [] → asked.2.fetchOffset = outcome.highWatermark ∨ returned before ≠ 0)

inductive Answers (index : IndexState) : List PartitionOutcome →
    List (Option String × FetchPartition) → List PartitionOutcome → Prop
  | nil (before : List PartitionOutcome) : Answers index before [] []
  | cons {before : List PartitionOutcome} {asked : Option String × FetchPartition}
      {rest : List (Option String × FetchPartition)} {outcome : PartitionOutcome}
      {outcomes : List PartitionOutcome} (first : Answered index before asked outcome)
      (others : Answers index (before ++ [outcome]) rest outcomes) :
      Answers index before (asked :: rest) (outcome :: outcomes)

namespace Answers

variable {index : IndexState} {before outcomes : List PartitionOutcome}
  {asked : List (Option String × FetchPartition)}

theorem append (first : Answers index before asked outcomes)
    {asked' : List (Option String × FetchPartition)} {outcomes' : List PartitionOutcome}
    (others : Answers index (before ++ outcomes) asked' outcomes') :
    Answers index before (asked ++ asked') (outcomes ++ outcomes') := by
  induction first with
  | nil before => simpa using others
  | cons one _ ih =>
    refine .cons one (ih ?_)
    rw [List.append_assoc]
    exact others

theorem length_eq (answers : Answers index before asked outcomes) :
    outcomes.length = asked.length := by
  induction answers with
  | nil => rfl
  | cons _ _ ih => rw [List.length_cons, List.length_cons, ih]

theorem at_position (answers : Answers index before asked outcomes) {position : Nat}
    {one : Option String × FetchPartition} {outcome : PartitionOutcome}
    (hasked : asked[position]? = some one) (houtcome : outcomes[position]? = some outcome) :
    Answered index (before ++ outcomes.take position) one outcome := by
  induction answers generalizing position with
  | nil => simp at hasked
  | cons first _ ih =>
    cases position with
    | zero =>
      cases hasked
      cases houtcome
      rw [List.take_zero, List.append_nil]
      exact first
    | succ position =>
      rw [List.take_succ_cons, List.append_cons]
      exact ih hasked houtcome

end Answers

namespace Node

variable {self : Node} {index : IndexState} {objects : FetchedObjects}

theorem onePartition_honest {topic : Option String} {unknown : Int} {asked : FetchPartition}
    {allowance : Allowance} (honest : objects.Honest (self.cluster index)) :
    (self.onePartition (.still index) topic unknown asked allowance objects).2.Honest
      (self.cluster index) := by
  have kept : ∀ topic partition start,
      (self.readAcross (.still index) topic partition start allowance objects).2.Honest
        (self.cluster index) := by
    intro topic partition start
    have through := @Cluster.manifestPage_honest (self.cluster index) topic partition start
      allowance objects honest
    unfold readAcross
    dsimp only
    split
    · exact through
    · split
      · exact through
      · exact Cluster.readPage_honest through
  unfold onePartition
  dsimp only
  split
  · exact honest
  · rename_i topicId partition high start _
    have through := kept topicId partition start
    split <;> rename_i answered <;> rw [answered] at through <;> exact through

/-- One partition is answered with nothing at its end only, unless the budget is not to be
overshot any more. -/
theorem onePartition_answered (sound : index.Sound) (covered : (self.cluster index).Covered)
    (honest : objects.Honest (self.cluster index)) {topic : Option String} {unknown : Int}
    (known : unknown ≠ ErrorCode.none) {asked : FetchPartition} {allowance : Allowance}
    {before : List PartitionOutcome}
    (overshoots : returned before = 0 → allowance.mayOvershoot = true) :
    Answered index before (topic, asked)
      (self.onePartition (.still index) topic unknown asked allowance objects).1 := by
  intro answered
  rcases onePartition_cases self (.still index) topic unknown asked allowance objects with
    ⟨-, same | other⟩ | ⟨topicId, partition, high, start, read, resolved, hread, outcome⟩
  · exact absurd (same.symm.trans answered) known
  · exact absurd answered other
  · obtain ⟨name, named, -, topicOf, partitionOf, rfl, offset, within⟩ := resolve_ok resolved
    rw [outcome]
    refine ⟨⟨name, topicId, partition, named, topicOf, partitionOf, rfl⟩, ?_⟩
    intro nothing
    by_contra more
    rw [not_or, not_not] at more
    obtain ⟨short, fresh⟩ := more
    have filled := (onePartition_allows self (.still index) topic unknown asked allowance
      objects).2.1
    rw [outcome] at filled
    have empty : read.served = [] := (records_eq_nil filled).mp nothing
    obtain ⟨fromManifest, fromIndex, hmanifest, hindex, hpage⟩ := readAcross_ok hread
    unfold Offset.new at offset
    split at offset
    · cases offset
    · cases offset
      have below : asked.fetchOffset.toNat < index.endOffset (topicId, partition) := by
        rename_i positive
        change ¬ asked.fetchOffset = (index.endOffset (topicId, partition) : Int) at short
        change asked.fetchOffset ≤ (index.endOffset (topicId, partition) : Int) at within
        omega
      unfold IndexState.endOffset at below
      cases held : index.partition (topicId, partition) with
      | none => simp [held] at below
      | some p =>
        have started : p.logStart ≤ asked.fetchOffset.toNat := by
          by_contra early
          have refuses : index.findBatches (topicId, partition) asked.fetchOffset.toNat
              allowance.bytes = .error (.belowLogStart asked.fetchOffset.toNat p.logStart) := by
            rw [IndexState.findBatches_of_held held]
            exact if_pos (not_le.mp early)
          cases refuses.symm.trans hindex
        rw [held] at below
        refine Cluster.readPage_nonempty (overshoots fresh) ?_ hpage empty
        exact @Cluster.page_nonempty (self.cluster index) topicId partition _ p allowance held
          (sound.wf _ _ held) covered started below (overshoots fresh) objects honest _ _
          hmanifest hindex

/-- One topic's partitions, read out of a budget. -/
theorem readPartitions_answers (sound : index.Sound) (covered : (self.cluster index).Covered)
    (authorized : Bool) (name : Option String) {unknown : Int} (known : unknown ≠ ErrorCode.none)
    (asked : List FetchPartition) {budget : Budget} {total : Nat}
    {before : List PartitionOutcome} (holds : budget.Holds total before)
    {objects : FetchedObjects} (honest : objects.Honest (self.cluster index)) :
    let read := self.readPartitions index authorized name unknown asked budget objects
    read.2.1.Holds total (before ++ read.1) ∧ read.2.2.Honest (self.cluster index) ∧
      Answers index before (asked.map fun one => (name, one)) read.1 := by
  induction asked generalizing budget before objects with
  | nil => exact ⟨by simpa [readPartitions] using holds, honest, .nil before⟩
  | cons one rest ih =>
    dsimp only at ih ⊢
    unfold readPartitions
    cases authorized with
    | true =>
      dsimp only [if_true]
      obtain ⟨allows, -, paid⟩ := self.onePartition_allows (.still index) name unknown one
        (budget.allowance one.partitionMaxBytes) objects
      obtain ⟨after, kept, answers⟩ := ih (holds.spend allows paid) (onePartition_honest honest)
      rw [List.append_assoc] at after
      exact ⟨after, kept, .cons (onePartition_answered sound covered honest known
        holds.mayOvershoot_iff.mpr) answers⟩
    | false =>
      dsimp only [Bool.false_eq_true, if_false]
      obtain ⟨after, kept, answers⟩ := ih (holds.refuse
        (show (refused index name one.index ErrorCode.topicAuthorizationFailed).served = [] from
          rfl)) honest
      rw [List.append_assoc] at after
      exact ⟨after, kept, .cons (fun none_ => absurd none_
        (by decide : ErrorCode.topicAuthorizationFailed ≠ ErrorCode.none)) answers⟩

/-- The partitions a request asks for, in order, each with the name its topic resolves to. -/
def asks (self : Node) (version : Nat) (topics : List FetchTopic) :
    List (Option String × FetchPartition) :=
  topics.flatMap fun topic => topic.partitions.map fun one => (self.resolvedName topic version, one)

theorem readTopics_answers (sound : index.Sound) (covered : (self.cluster index).Covered)
    (authz : AuthzContext) (version : Nat) (topics : List FetchTopic) {budget : Budget}
    {total : Nat} {before : List PartitionOutcome} (holds : budget.Holds total before)
    {objects : FetchedObjects} (honest : objects.Honest (self.cluster index)) :
    let read := (self.readTopics index authz version topics budget objects).1.flatten
    (∃ after : Budget, after.Holds total (before ++ read)) ∧
      Answers index before (self.asks version topics) read := by
  induction topics generalizing budget before objects with
  | nil => exact ⟨⟨budget, by simpa [readTopics] using holds⟩, .nil before⟩
  | cons topic rest ih =>
    have known : (if 13 ≤ version then ErrorCode.unknownTopicId
        else ErrorCode.unknownTopicOrPartition) ≠ ErrorCode.none := by
      split <;> decide
    obtain ⟨after, kept, answers⟩ := readPartitions_answers sound covered
      ((self.resolvedName topic version).all fun name => topicAuthorized name authz)
      (self.resolvedName topic version) known topic.partitions holds honest
    obtain ⟨ends, others⟩ := ih after kept
    dsimp only
    unfold readTopics asks
    rw [List.flatMap_cons]
    dsimp only
    rw [List.flatten_cons, ← List.append_assoc]
    exact ⟨ends, answers.append others⟩

theorem exists_of_returned {outcomes : List PartitionOutcome} (some : returned outcomes ≠ 0) :
    ∃ outcome ∈ outcomes, outcome.records ≠ [] := by
  by_contra nothing
  simp only [not_exists, not_and, not_not] at nothing
  apply some
  unfold returned
  rw [List.sum_eq_zero]
  intro length_ among
  obtain ⟨outcome, inside, rfl⟩ := List.mem_map.mp among
  rw [nothing outcome inside, List.length_nil]

/-- A pass returns its budget and one batch at most; a partition is answered with nothing, and
no error, only at its end or after one that was answered with records; so a pass over a
partition with something to read is answered with records or an error. -/
theorem readAll_proceeds (self : Node) {quota : Option IndexQuota}
    {pages : List (List MetadataEntry)} {index : IndexState}
    (folded : pages.foldlM IndexState.apply { quota := quota } = .ok index)
    (covered : (self.cluster index).Covered) (authz : AuthzContext) (version : Nat)
    (request : FetchRequest) {objects : FetchedObjects}
    (honest : objects.Honest (self.cluster index)) :
    let outcomes := (self.readAll index authz version request objects).1.flatten
    let asked := self.asks version request.topics
    let budget := min request.maxBytes.toNat readBudgetBytes
    (returned outcomes ≤ budget ∨ ∃ outcome ∈ outcomes, ∃ batch ∈ outcome.served,
      returned outcomes ≤ budget + batch.2.length) ∧
    outcomes.length = asked.length ∧
    (∀ (position : Nat) one outcome, asked[position]? = some one →
      outcomes[position]? = some outcome →
      outcome.errorCode = ErrorCode.none → outcome.records = [] →
      one.2.fetchOffset = outcome.highWatermark ∨
        ∃ earlier ∈ outcomes.take position, earlier.records ≠ []) ∧
    ((∃ one ∈ asked, ∃ name topic partition, one.1 = some name ∧ TopicId.new name = .ok topic ∧
      PartitionId.new one.2.index = .ok partition ∧
      one.2.fetchOffset < index.endOffset (topic, partition)) →
      ∃ outcome ∈ outcomes, outcome.errorCode ≠ ErrorCode.none ∨ outcome.records ≠ []) := by
  have sound := IndexState.Sound.fold (IndexState.Sound.empty quota) folded
  obtain ⟨⟨after, holds⟩, answers⟩ := readTopics_answers sound covered authz version
    request.topics (.init request.maxBytes) honest
  have progress : ∀ (position : Nat) one outcome,
      (self.asks version request.topics)[position]? = some one →
      (self.readAll index authz version request objects).1.flatten[position]? = some outcome →
      outcome.errorCode = ErrorCode.none → outcome.records = [] →
      one.2.fetchOffset = outcome.highWatermark ∨ ∃ earlier ∈
        (self.readAll index authz version request objects).1.flatten.take position,
        earlier.records ≠ [] := by
    intro position one outcome hasked houtcome none_ nothing
    rcases (answers.at_position hasked houtcome none_).2 nothing with ends | some
    · exact .inl ends
    · exact .inr (exists_of_returned some)
  refine ⟨?_, answers.length_eq, progress, ?_⟩
  · rcases holds.within with within | ⟨-, -, outcome, among, batch, serves, passes⟩
    · rw [List.nil_append] at within
      exact .inl (by unfold readAll; omega)
    · exact .inr ⟨outcome, among, batch, serves, passes⟩
  · rintro ⟨one, among, name, topic, partition, named, topicOf, partitionOf, more⟩
    by_contra silent
    simp only [not_exists, not_and, not_or, not_not] at silent
    obtain ⟨position, hasked⟩ := List.mem_iff_getElem?.mp among
    have inside : position <
        (self.readAll index authz version request objects).1.flatten.length := by
      have bound := (List.getElem?_eq_some_iff.mp hasked).1
      exact answers.length_eq ▸ bound
    have houtcome := List.getElem?_eq_getElem inside
    obtain ⟨none_, nothing⟩ := silent _ (List.mem_of_getElem? houtcome)
    obtain ⟨⟨name', topic', partition', named', topicOf', partitionOf', high⟩, -⟩ :=
      answers.at_position hasked houtcome none_
    cases named.symm.trans named'
    cases topicOf.symm.trans topicOf'
    cases partitionOf.symm.trans partitionOf'
    rcases progress position one _ hasked houtcome none_ nothing with ends | ⟨earlier, before, some⟩
    · omega
    · exact some (silent earlier (List.mem_of_mem_take before)).2

/-- A node that serves one partition out of a manifest of one link. -/
def wholeNode : Node where
  store := (clusterOf wholeLink .new).store
  sliceRegion := fun _ _ whole => .ok whole
  partitionCount := fun _ => some 1
  topicNameById := fun _ => none

def frugalRequest : FetchRequest := ⟨0, [⟨some "t", 0, [⟨0, 0, 0⟩]⟩]⟩

theorem covered_wholeNode {s : IndexState} {p : PartitionIndex}
    (only : s.partitions.keys = {(⟨"t"⟩, 0)}) (held : s.partition (⟨"t"⟩, 0) = some p)
    (hmanifest : p.manifest = some (⟨"m"⟩, 2)) : (wholeNode.cluster s).Covered := by
  intro topic partition p' held' key upto named
  have among : (topic, partition) ∈ s.partitions.keys :=
    Finmap.mem_keys.mpr (Finmap.lookup_isSome.mp (Option.isSome_of_mem held'))
  rw [only, Finset.mem_singleton] at among
  cases among
  cases held.symm.trans held'
  cases hmanifest.symm.trans named
  have linked : Linked (clusterOf wholeLink s) wholeLink :=
    linked_clusterOf (by decide +kernel) (by simp [wholeLink])
  refine ⟨wholeLink, rfl, ⟨linked.stored, linked.names⟩, 0, Nat.zero_le _, ?_⟩
  simp [listedBelow, wholeLink, ManifestEntry.stop]

theorem readAll_proceeds_frugal : ∃ s,
    splitLog.foldlM IndexState.apply { quota := none } = .ok s ∧
    ∃ outcome ∈ (wholeNode.readAll s ⟨none, false, []⟩ 11 frugalRequest {}).1.flatten,
      outcome.errorCode ≠ ErrorCode.none ∨ outcome.records ≠ [] := by
  obtain ⟨s, p, folded, held, -, hend, hmanifest⟩ := exists_splitIndex
  have only : s.partitions.keys = {(⟨"t"⟩, 0)} := by
    have shape : ((splitLog.foldlM IndexState.apply { quota := none }).toOption.map fun s =>
        s.partitions.keys) = some {(⟨"t"⟩, 0)} := by decide +kernel
    rw [folded] at shape
    exact Option.some.inj shape
  refine ⟨s, folded, (readAll_proceeds wholeNode folded (covered_wholeNode only held hmanifest)
    ⟨none, false, []⟩ 11 frugalRequest (fun _ _ _ seen => by cases seen)).2.2.2
    ⟨(some "t", ⟨0, 0, 0⟩), by simp [asks, frugalRequest, resolvedName], "t", ⟨"t"⟩, 0, rfl,
      by decide, by decide, ?_⟩⟩
  unfold IndexState.endOffset
  rw [held]
  simp [hend]

end Node

end Oqueue.Broker
