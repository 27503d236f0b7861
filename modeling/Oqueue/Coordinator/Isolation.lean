import Oqueue.Coordinator.Acknowledged
import Oqueue.Coordinator.Leadership

/-!
# Each span of a commit is decided and answered for itself

A bundle's spans are dealt into three buckets, journaled, and woven back. Every span is
in one bucket and answered at its own position, and what one producer's spans carry does
not show in what is decided for anybody else's.
-/

namespace Oqueue

open Checked

/-- What admission says of one span, with what its bucket keeps. -/
inductive Verdict where
  | admitted (span : CommittedSpan)
  | replayed (topic : TopicId) (partition : Nat) (assignment : Assignment)
  | rejected (topic : TopicId) (partition : Nat) (reason : RejectReason)
  deriving DecidableEq, Repr

def Verdict.About (span : CommittedSpan) : Verdict → Prop
  | .admitted taken => taken = span
  | .replayed topic partition _ => (topic, partition) = span.key
  | .rejected topic partition _ => (topic, partition) = span.key

namespace Admission

/-- Everything the buckets hold under one position. -/
def verdicts (self : Admission) (index : Nat) : List Verdict :=
  (self.admitted.filter fun e => e.1 = index).map (fun e => .admitted e.2) ++
    (self.replayed.filter fun e => e.1 = index).map (fun e => .replayed e.2.1 e.2.2.1 e.2.2.2) ++
    (self.rejected.filter fun e => e.1 = index).map fun e => .rejected e.2.1 e.2.2.1 e.2.2.2

def record (self : Admission) (index : Nat) : Verdict → Admission
  | .admitted span => { self with admitted := self.admitted ++ [(index, span)] }
  | .replayed topic partition assignment =>
    { self with replayed := self.replayed ++ [(index, topic, partition, assignment)] }
  | .rejected topic partition reason =>
    { self with rejected := self.rejected ++ [(index, topic, partition, reason)] }

theorem verdicts_record_ne (admission : Admission) {index other : Nat} (apart : index ≠ other)
    (verdict : Verdict) : (admission.record index verdict).verdicts other =
      admission.verdicts other := by
  cases verdict <;> simp [record, verdicts, apart]

theorem verdicts_record_self {admission : Admission} {index : Nat}
    (fresh : admission.verdicts index = []) (verdict : Verdict) :
    (admission.record index verdict).verdicts index = [verdict] := by
  unfold verdicts at fresh
  rw [List.append_eq_nil_iff, List.append_eq_nil_iff] at fresh
  obtain ⟨⟨admitted, replayed⟩, rejected⟩ := fresh
  cases verdict with
  | admitted span =>
    unfold verdicts record
    rw [List.filter_append, List.map_append, admitted, replayed, rejected]
    simp
  | replayed topic partition assignment =>
    unfold verdicts record
    rw [List.filter_append, List.map_append, admitted, replayed, rejected]
    simp
  | rejected topic partition reason =>
    unfold verdicts record
    rw [List.filter_append, List.map_append, admitted, replayed, rejected]
    simp

end Admission

namespace Allocator

/-- One span's verdict, and the lines the rest of its bundle sees. -/
def verdict (self : Allocator) (running : RunningLines) (span : CommittedSpan) :
    Verdict × RunningLines :=
  match span.producer with
  | none => (.admitted span, running)
  | some identity =>
    let line := (identity.id, span.topic, span.partition)
    let current := self.currentLine running line
    match classify current.1 current.2 identity.sequence identity.epoch span.recordCount with
    | .admits => (.admitted span,
        running.insert line (.provisional identity.epoch identity.sequence span.recordCount))
    | .replay state => (.replayed span.topic span.partition
        ⟨span.topic, span.partition, state.baseOffset, state.recordCount⟩, running)
    | .reject reason => (.rejected span.topic span.partition reason, running)

def verdicts (self : Allocator) : RunningLines → List CommittedSpan → List Verdict
  | _, [] => []
  | running, span :: rest =>
    (self.verdict running span).1 :: self.verdicts (self.verdict running span).2 rest

theorem length_verdicts (a : Allocator) (running : RunningLines) (spans : List CommittedSpan) :
    (a.verdicts running spans).length = spans.length := by
  induction spans generalizing running with
  | nil => rfl
  | cons span rest ih => exact congrArg Nat.succ (ih _)

theorem verdict_about (a : Allocator) (running : RunningLines) (span : CommittedSpan) :
    (a.verdict running span).1.About span := by
  unfold verdict
  cases span.producer with
  | none => exact rfl
  | some identity =>
    dsimp only
    cases classify (a.currentLine running _).1 (a.currentLine running _).2 _ _ _ <;> exact rfl

theorem verdicts_about (a : Allocator) (running : RunningLines) {spans : List CommittedSpan}
    {index : Nat} {span : CommittedSpan} (held : spans[index]? = some span) :
    ∃ verdict, (a.verdicts running spans)[index]? = some verdict ∧ verdict.About span := by
  induction spans generalizing running index with
  | nil => cases held
  | cons first rest ih =>
    cases index with
    | zero =>
      cases held
      exact ⟨_, rfl, a.verdict_about running span⟩
    | succ index => exact ih (a.verdict running first).2 held

theorem admitSpan_eq (a : Allocator) (held : Admission × RunningLines)
    (item : CommittedSpan × Nat) : a.admitSpan held item =
      (held.1.record item.2 (a.verdict held.2 item.1).1, (a.verdict held.2 item.1).2) := by
  unfold admitSpan verdict
  cases producer : item.1.producer with
  | none => rfl
  | some identity =>
    dsimp only
    cases classify (a.currentLine held.2 _).1 (a.currentLine held.2 _).2 _ _ _ with
    | admits =>
      unfold recordDecision
      dsimp only
      rw [producer]
      rfl
    | replay state => rfl
    | reject reason => rfl

/-- A bundle's buckets hold its verdicts, each under its own position and no other. -/
theorem verdicts_admitSpans (a : Allocator) (spans : List CommittedSpan) (index : Nat) :
    (a.admitSpans spans).verdicts index = ((a.verdicts ∅ spans)[index]?).toList := by
  have deals : ∀ (rest : List CommittedSpan) (from_ : Nat) (held : Admission × RunningLines),
      (∀ i, from_ ≤ i → held.1.verdicts i = []) →
      ∀ i, ((rest.zipIdx from_).foldl a.admitSpan held).1.verdicts i =
        if i < from_ then held.1.verdicts i
        else ((a.verdicts held.2 rest)[i - from_]?).toList := by
    intro rest
    induction rest with
    | nil =>
      intro from_ held fresh i
      split
      · rfl
      · exact fresh i (by omega)
    | cons span rest ih =>
      intro from_ held fresh i
      rw [List.zipIdx_cons, List.foldl_cons, admitSpan_eq]
      dsimp only
      have later : ∀ i, from_ + 1 ≤ i →
          (held.1.record from_ (a.verdict held.2 span).1).verdicts i = [] := by
        intro i beyond
        rw [Admission.verdicts_record_ne _ (by omega)]
        exact fresh i (by omega)
      rw [ih (from_ + 1) _ later]
      dsimp only
      rcases Nat.lt_trichotomy i from_ with before | rfl | after
      · rw [if_pos (by omega), if_pos before, Admission.verdicts_record_ne _ (by omega)]
      · rw [if_pos (by omega), if_neg (by omega), Nat.sub_self,
          Admission.verdicts_record_self (fresh i (Nat.le_refl _))]
        rfl
      · rw [if_neg (by omega), if_neg (by omega), verdicts]
        obtain ⟨gap, rfl⟩ := Nat.exists_eq_add_of_lt after
        rw [show from_ + gap + 1 - (from_ + 1) = gap by omega,
          show from_ + gap + 1 - from_ = gap + 1 by omega, List.getElem?_cons_succ]
  have all := deals spans 0 ({}, ∅) (fun _ _ => rfl) index
  rwa [if_neg (Nat.not_lt_zero _), Nat.sub_zero] at all

/-- Whether a span is not this producer's: another's, or nobody's. -/
def others (id : Nat) (span : CommittedSpan) : Bool :=
  span.producer.all fun identity => decide (identity.id ≠ id)

def SameFor (id : Nat) (running running' : RunningLines) : Prop :=
  ∀ line : ProducerLine, line.1 ≠ id → running.lookup line = running'.lookup line

theorem SameFor.insert_own {id : Nat} {running running' : RunningLines}
    (same : SameFor id running running') {line : ProducerLine} (own : line.1 = id)
    (state : ProducerState) : SameFor id (running.insert line state) running' := by
  intro other apart
  have elsewhere : other ≠ line := by
    rintro rfl
    exact apart own
  rw [Finmap.lookup_insert_of_ne _ elsewhere]
  exact same other apart

theorem SameFor.insert_both {id : Nat} {running running' : RunningLines}
    (same : SameFor id running running') (line : ProducerLine) (state : ProducerState) :
    SameFor id (running.insert line state) (running'.insert line state) := by
  intro other apart
  by_cases here : other = line
  · rw [here, Finmap.lookup_insert, Finmap.lookup_insert]
  · rw [Finmap.lookup_insert_of_ne _ here, Finmap.lookup_insert_of_ne _ here]
    exact same other apart

theorem SameFor.own {a : Allocator} {id : Nat} {running running' : RunningLines}
    (same : SameFor id running running') {span : CommittedSpan} (own : others id span = false) :
    SameFor id (a.verdict running span).2 running' := by
  unfold others at own
  unfold verdict
  cases producer : span.producer with
  | none =>
    rw [producer] at own
    cases own
  | some identity =>
    rw [producer] at own
    have here : identity.id = id := by simpa using own
    dsimp only
    cases classify (a.currentLine running _).1 (a.currentLine running _).2 _ _ _ with
    | admits => exact same.insert_own here _
    | replay state => exact same
    | reject reason => exact same

/-- Anybody else's span meets the same line, and leaves the others the same. -/
theorem SameFor.verdict {a : Allocator} {id : Nat} {running running' : RunningLines}
    (same : SameFor id running running') {span : CommittedSpan} (other : others id span = true) :
    (a.verdict running span).1 = (a.verdict running' span).1 ∧
      SameFor id (a.verdict running span).2 (a.verdict running' span).2 := by
  unfold others at other
  unfold Allocator.verdict
  cases producer : span.producer with
  | none => exact ⟨rfl, same⟩
  | some identity =>
    rw [producer] at other
    have apart : identity.id ≠ id := by simpa using other
    have met : a.currentLine running (identity.id, span.topic, span.partition) =
        a.currentLine running' (identity.id, span.topic, span.partition) := by
      unfold currentLine
      rw [same _ apart]
    dsimp only
    rw [met]
    cases classify (a.currentLine running' _).1 (a.currentLine running' _).2 _ _ _ with
    | admits => exact ⟨rfl, same.insert_both _ _⟩
    | replay state => exact ⟨rfl, same⟩
    | reject reason => exact ⟨rfl, same⟩

theorem verdicts_others (a : Allocator) (id : Nat) (spans : List CommittedSpan)
    {running running' : RunningLines} (same : SameFor id running running') :
    (spans.zip (a.verdicts running spans)).filter (fun e => others id e.1) =
      (spans.filter (others id)).zip (a.verdicts running' (spans.filter (others id))) := by
  induction spans generalizing running running' with
  | nil => rfl
  | cons span rest ih =>
    rw [verdicts, List.zip_cons_cons]
    cases other : others id span with
    | false =>
      rw [List.filter_cons_of_neg (by simp [other]), List.filter_cons_of_neg (by simp [other])]
      exact ih (same.own other)
    | true =>
      obtain ⟨first, later⟩ := same.verdict other
      rw [List.filter_cons_of_pos (by simp [other]), List.filter_cons_of_pos other, verdicts,
        List.zip_cons_cons, first]
      exact congrArg _ (ih later)

/-- Each kept span of a bundle, with everything the buckets hold under its position. -/
def decided (self : Allocator) (keep : CommittedSpan → Bool) (spans : List CommittedSpan) :
    List (CommittedSpan × List Verdict) :=
  (spans.zipIdx.filter fun item => keep item.1).map fun item =>
    (item.1, (self.admitSpans spans).verdicts item.2)

theorem decided_eq (a : Allocator) (keep : CommittedSpan → Bool) (spans : List CommittedSpan) :
    a.decided keep spans = ((spans.zip (a.verdicts ∅ spans)).filter fun e => keep e.1).map
      fun e => (e.1, [e.2]) := by
  have whole : spans.zipIdx.map (fun item => (item.1, (a.admitSpans spans).verdicts item.2)) =
      (spans.zip (a.verdicts ∅ spans)).map fun e => (e.1, [e.2]) := by
    refine List.ext_getElem? fun i => ?_
    rw [List.getElem?_map, List.getElem?_map, List.getElem?_zipIdx]
    have lengths := a.length_verdicts ∅ spans
    cases held : spans[i]? with
    | none =>
      have beyond := List.getElem?_eq_none_iff.mp held
      rw [List.getElem?_eq_none (by rw [List.length_zip]; omega)]
      rfl
    | some span =>
      have inside := (List.getElem?_eq_some_iff.mp held).1
      have given : (a.verdicts ∅ spans)[i]? = some (a.verdicts ∅ spans)[i] :=
        List.getElem?_eq_getElem (by omega)
      have zipped : (spans.zip (a.verdicts ∅ spans))[i]? = some (span, (a.verdicts ∅ spans)[i]) :=
        List.getElem?_zip_eq_some.mpr ⟨held, given⟩
      rw [zipped, Option.map_some, Option.map_some, Nat.zero_add, verdicts_admitSpans, given]
      rfl
  unfold decided
  have left := congrArg (List.filter fun e : CommittedSpan × List Verdict => keep e.1) whole
  rw [List.filter_map, List.filter_map] at left
  exact left

end Allocator

/-- What a verdict's span is answered with: its own offset, or what its bucket says. -/
def Verdict.Answered (allocator : Allocator) (object : ObjectKey) (spans : List CommittedSpan)
    (writtenAt index : Nat) : Verdict → SpanOutcome → Prop
  | .admitted span, outcome => ∃ (staged : Allocator.Staged) (nth : Nat) (assignment : Assignment),
      allocator.stage object ((allocator.admitSpans spans).admitted.map Prod.snd) writtenAt =
        .ok staged ∧
      (allocator.admitSpans spans).admitted[nth]? = some (index, span) ∧
      staged.assignments[nth]? = some assignment ∧
      assignment.key = span.key ∧ assignment.recordCount = span.recordCount ∧
      outcome = .assigned assignment
  | .replayed _ _ assignment, outcome => outcome = .assigned assignment
  | .rejected _ _ reason, outcome => outcome = .rejected reason

namespace Allocator

theorem mem_of_verdicts {admission : Admission} {index : Nat} {verdict : Verdict}
    (held : verdict ∈ admission.verdicts index) :
    match verdict with
    | .admitted span => (index, span) ∈ admission.admitted
    | .replayed topic partition assignment =>
      (index, topic, partition, assignment) ∈ admission.replayed
    | .rejected topic partition reason => (index, topic, partition, reason) ∈ admission.rejected := by
  unfold Admission.verdicts at held
  rcases List.mem_append.mp held with held | held
  · rcases List.mem_append.mp held with held | held
    · obtain ⟨⟨at_, span⟩, among, rfl⟩ := List.mem_map.mp held
      obtain ⟨there, here⟩ := List.mem_filter.mp among
      exact of_decide_eq_true here ▸ there
    · obtain ⟨⟨at_, topic, partition, assignment⟩, among, rfl⟩ := List.mem_map.mp held
      obtain ⟨there, here⟩ := List.mem_filter.mp among
      exact of_decide_eq_true here ▸ there
  · obtain ⟨⟨at_, topic, partition, reason⟩, among, rfl⟩ := List.mem_map.mp held
    obtain ⟨there, here⟩ := List.mem_filter.mp among
    exact of_decide_eq_true here ▸ there

end Allocator

theorem Leader.write_ok {leader leader' : Leader} {turn : Turn}
    {staged : Except Error Allocator.Staged} {written : Allocator.Staged}
    (h : leader.write turn staged = (leader', .ok written)) : staged = .ok written := by
  unfold Leader.write at h
  split at h
  · cases h
  · split at h
    · cases h
    · split at h
      · cases h
      · split at h
        · cases h
        · cases h
          rfl

/-- Outcomes numbered like the spans, the admitted ones apart, answer the spans in order. -/
theorem woven_answers {a : Allocator} {object : ObjectKey} {spans : List CommittedSpan}
    {writtenAt : Nat} {own : List (Nat × SpanOutcome)}
    (numbered : (own.map Prod.fst).Perm ((a.admitSpans spans).admitted.map Prod.fst))
    (assigned : ∀ index span, (index, span) ∈ (a.admitSpans spans).admitted →
      ∃ outcome, (index, outcome) ∈ own ∧
        (Verdict.admitted span).Answered a object spans writtenAt index outcome) :
    (inSpanOrder ((a.admitSpans spans).answered ++ own)).length = spans.length ∧
    ∀ index < spans.length, ∃ verdict outcome, (a.admitSpans spans).verdicts index = [verdict] ∧
      (inSpanOrder ((a.admitSpans spans).answered ++ own))[index]? = some outcome ∧
      verdict.Answered a object spans writtenAt index outcome := by
  have keys : (a.admitSpans spans).answered.map Prod.fst =
      (a.admitSpans spans).replayed.map Prod.fst ++ (a.admitSpans spans).rejected.map Prod.fst := by
    simp [Admission.answered, Function.comp_def]
  have positions := positions_admitSpans a spans
  unfold Admission.positions at positions
  have all : (((a.admitSpans spans).answered ++ own).map Prod.fst).Perm
      (List.range spans.length) := by
    rw [List.map_append, keys]
    exact ((numbered.append_left _).trans List.perm_append_comm).trans positions
  refine ⟨length_inSpanOrder all, ?_⟩
  intro index inside
  have inside' : index < (a.verdicts ∅ spans).length := by rwa [a.length_verdicts]
  have single := a.verdicts_admitSpans spans index
  rw [List.getElem?_eq_getElem inside', Option.toList_some] at single
  have bucket := Allocator.mem_of_verdicts (single ▸ List.mem_singleton.mpr rfl)
  generalize (a.verdicts ∅ spans)[index] = verdict at single bucket
  cases verdict with
  | admitted span =>
    obtain ⟨outcome, among, answers⟩ := assigned index span bucket
    exact ⟨_, outcome, single, (inSpanOrder_eq_some all).mpr (List.mem_append_right _ among), answers⟩
  | replayed topic partition assignment =>
    refine ⟨_, .assigned assignment, single, (inSpanOrder_eq_some all).mpr ?_, rfl⟩
    exact List.mem_append_left _ (List.mem_append_left _ (List.mem_map.mpr ⟨_, bucket, rfl⟩))
  | rejected topic partition reason =>
    refine ⟨_, .rejected reason, single, (inSpanOrder_eq_some all).mpr ?_, rfl⟩
    exact List.mem_append_left _ (List.mem_append_right _ (List.mem_map.mpr ⟨_, bucket, rfl⟩))

/-- What is staged for the admitted spans answers them, each at its position. -/
theorem staged_answers {a : Allocator} {object : ObjectKey} {spans : List CommittedSpan}
    {writtenAt : Nat} {staged : Allocator.Staged}
    (hstaged : a.stage object ((a.admitSpans spans).admitted.map Prod.snd) writtenAt = .ok staged) :
    ((((a.admitSpans spans).admitted.map Prod.fst).zip
        (staged.assignments.map SpanOutcome.assigned)).map Prod.fst).Perm
      ((a.admitSpans spans).admitted.map Prod.fst) ∧
    ∀ index span, (index, span) ∈ (a.admitSpans spans).admitted →
      ∃ outcome, (index, outcome) ∈ ((a.admitSpans spans).admitted.map Prod.fst).zip
          (staged.assignments.map SpanOutcome.assigned) ∧
        (Verdict.admitted span).Answered a object spans writtenAt index outcome := by
  obtain ⟨acc, hacc, -, rfl⟩ := Allocator.stage_eq_ok.mp hstaged
  have positional := Allocator.stage_positional hacc
  have lengths : acc.assignments.length = (a.admitSpans spans).admitted.length := by
    have := congrArg List.length positional
    simpa using this
  refine ⟨List.Perm.of_eq (List.map_fst_zip (by simp [lengths])), ?_⟩
  intro index span among
  obtain ⟨nth, here⟩ := List.mem_iff_getElem?.mp among
  have inside : nth < acc.assignments.length := by
    rw [lengths]
    exact (List.getElem?_eq_some_iff.mp here).1
  have given : acc.assignments[nth]? = some acc.assignments[nth] := List.getElem?_eq_getElem inside
  have same := congrArg (fun xs => xs[nth]?) positional
  simp only [List.getElem?_map, given, here, Option.map_some, Option.some.injEq, Prod.mk.injEq] at same
  refine ⟨.assigned acc.assignments[nth], List.mem_iff_getElem?.mpr ⟨nth, ?_⟩,
    _, nth, acc.assignments[nth], hstaged, here, given, ?_, ?_, rfl⟩
  · rw [List.getElem?_zip_eq_some, List.getElem?_map, List.getElem?_map, here, given]
    exact ⟨rfl, rfl⟩
  · exact Prod.ext same.1.1 same.1.2
  · exact same.2

/-- A commit's answer has one outcome for each span, and it is that span's. -/
theorem Leader.serve_positional {leader leader' : Leader} {turn : Turn} {object : ObjectKey}
    {spans : List CommittedSpan} {writtenAt : Nat} {ack : CommitAck}
    (h : leader.serve turn object spans writtenAt = (leader', .ok ack)) :
    ack.outcomes.length = spans.length ∧
    ∀ index < spans.length, ∃ verdict outcome,
      (leader.allocator.admitSpans spans).verdicts index = [verdict] ∧
      ack.outcomes[index]? = some outcome ∧
      verdict.Answered leader.allocator object spans writtenAt index outcome := by
  unfold Leader.serve at h
  dsimp only at h
  split at h
  case isTrue nothing =>
    cases h
    have none : (leader.allocator.admitSpans spans).admitted = [] := by simpa using nothing
    have woven := @woven_answers leader.allocator object spans writtenAt []
      (by rw [none]; exact List.Perm.refl _) (fun index span among => by rw [none] at among; cases among)
    rwa [List.append_nil] at woven
  case isFalse something =>
    rcases wrote : leader.write turn (leader.allocator.stage object
      ((leader.allocator.admitSpans spans).admitted.map Prod.snd) writtenAt) with ⟨after, outcome⟩
    rw [wrote] at h
    cases outcome with
    | error error => cases h
    | ok staged =>
      cases h
      obtain ⟨numbered, assigned⟩ := staged_answers (Leader.write_ok wrote)
      exact woven_answers numbered assigned

/-- The same of the loop that has no lease to lose. -/
theorem CoordinatorLoop.serve_positional {self loop : CoordinatorLoop} {object : ObjectKey}
    {spans : List CommittedSpan} {writtenAt : Nat} {journal : Except Error Unit} {ack : CommitAck}
    (h : self.serve object spans writtenAt journal = (loop, .ok ack)) :
    ack.outcomes.length = spans.length ∧
    ∀ index < spans.length, ∃ verdict outcome,
      (self.allocator.admitSpans spans).verdicts index = [verdict] ∧
      ack.outcomes[index]? = some outcome ∧
      verdict.Answered self.allocator object spans writtenAt index outcome := by
  unfold CoordinatorLoop.serve at h
  dsimp only at h
  split at h
  case isTrue nothing =>
    cases h
    have none : (self.allocator.admitSpans spans).admitted = [] := by simpa using nothing
    have woven := @woven_answers self.allocator object spans writtenAt []
      (by rw [none]; exact List.Perm.refl _) (fun index span among => by rw [none] at among; cases among)
    rwa [List.append_nil] at woven
  case isFalse something =>
    split at h
    · cases h
    · rename_i staged hstaged
      split at h
      · cases h
      · cases h
        obtain ⟨numbered, assigned⟩ := staged_answers hstaged
        exact woven_answers numbered assigned

/-- Of every bundle, from every allocator: each span is in one bucket and answered at its
own position, and a producer's spans do not show in what is decided for the others. -/
theorem commit_outcomes_isolated (allocator : Allocator) :
    (∀ (spans : List CommittedSpan) (index : Nat), match spans[index]? with
      | some span => ∃ verdict, (allocator.admitSpans spans).verdicts index = [verdict] ∧
          verdict.About span
      | none => (allocator.admitSpans spans).verdicts index = []) ∧
    (∀ (leader leader' : Leader) (turn : Turn) (object : ObjectKey) (spans : List CommittedSpan)
      (writtenAt : Nat) (ack : CommitAck), leader.allocator = allocator →
      leader.serve turn object spans writtenAt = (leader', .ok ack) →
      ack.outcomes.length = spans.length ∧ ∀ index < spans.length, ∃ verdict outcome,
        (allocator.admitSpans spans).verdicts index = [verdict] ∧
        ack.outcomes[index]? = some outcome ∧
        verdict.Answered allocator object spans writtenAt index outcome) ∧
    (∀ (loop loop' : CoordinatorLoop) (object : ObjectKey) (spans : List CommittedSpan)
      (writtenAt : Nat) (journal : Except Error Unit) (ack : CommitAck),
      loop.allocator = allocator →
      loop.serve object spans writtenAt journal = (loop', .ok ack) →
      ack.outcomes.length = spans.length ∧ ∀ index < spans.length, ∃ verdict outcome,
        (allocator.admitSpans spans).verdicts index = [verdict] ∧
        ack.outcomes[index]? = some outcome ∧
        verdict.Answered allocator object spans writtenAt index outcome) ∧
    ∀ (id : Nat) (spans spans' : List CommittedSpan),
      spans.filter (Allocator.others id) = spans'.filter (Allocator.others id) →
      allocator.decided (Allocator.others id) spans =
        allocator.decided (Allocator.others id) spans' := by
  refine ⟨fun spans index => ?_, ?_, ?_, ?_⟩
  · rw [allocator.verdicts_admitSpans]
    cases held : spans[index]? with
    | some span =>
      obtain ⟨verdict, given, about⟩ := allocator.verdicts_about ∅ held
      exact ⟨verdict, by rw [given]; rfl, about⟩
    | none =>
      rw [List.getElem?_eq_none_iff] at held
      rw [List.getElem?_eq_none (by rwa [allocator.length_verdicts])]
      rfl
  · rintro leader leader' turn object spans writtenAt ack rfl served
    exact Leader.serve_positional served
  · rintro loop loop' object spans writtenAt journal ack rfl served
    exact CoordinatorLoop.serve_positional served
  · intro id spans spans' same
    have alone := fun spans => allocator.verdicts_others id spans
      (fun (line : ProducerLine) (_ : line.1 ≠ id) => rfl : Allocator.SameFor id ∅ ∅)
    rw [Allocator.decided_eq, Allocator.decided_eq, alone, alone, same]

end Oqueue
